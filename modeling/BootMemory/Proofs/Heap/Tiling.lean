import BootMemory.Proofs.Heap.Growth
import BootMemory.Proofs.Heap.Release
import BootMemory.Proofs.Heap.Take

/-!
# Free and live blocks tile the arena

A heap does not know the blocks that it served, so `Heap.Tiled` is told: every unit of the
arena lies in exactly one of the free blocks and the live blocks, and every block starts with
a header that holds its size. Taking a block, giving a live one back, growing and writing to a
payload keep this, and `Keeps` says of each of them that no unit of another live block
changes.
-/

set_option autoImplicit false

namespace BootMemory

/-- Outside the units that are written, memory stays as it was. -/
theorem Arena.get_writeFrom (arena : Arena) {start count unit : Nat} (source : Nat → HeapUnit)
    (h : unit < start ∨ start + (count + 15) / 16 ≤ unit) :
    (arena.writeFrom start count source).get unit = arena.get unit := by
  unfold writeFrom
  have hout : ∀ index ∈ List.range ((count + 15) / 16), unit ≠ start + index := by
    intro index hm
    have := List.mem_range.mp hm
    omega
  revert hout
  generalize List.range ((count + 15) / 16) = indices
  intro hout
  induction indices generalizing arena with
  | nil => rfl
  | cons index rest ih =>
    obtain ⟨hindex, hrest⟩ := List.forall_mem_cons.mp hout
    rw [List.foldl_cons, ih _ hrest, get_set, if_neg hindex]

namespace Heap

open BootMemory.Span

variable {γ β : Type} {heap other : Heap γ} {free live : List Span} {span : Span}

/-- No unit of some spans differs between two heaps. -/
def Keeps (spans : List Span) (heap other : Heap γ) : Prop :=
  ∀ span ∈ spans, ∀ unit, covers unit span = true → other.arena.get unit = heap.arena.get unit

/-- A heap keeps its own memory. -/
theorem Keeps.refl (spans : List Span) (heap : Heap γ) : Keeps spans heap heap :=
  fun _ _ _ _ => rfl

/-- Memory that is kept twice in a row is kept. -/
theorem Keeps.trans {spans : List Span} {first second third : Heap γ}
    (h : Keeps spans first second) (h' : Keeps spans second third) : Keeps spans first third :=
  fun span hm unit hcover => (h' span hm unit hcover).trans (h span hm unit hcover)

/-- Every unit of the arena lies in exactly one of the free blocks and the live blocks. -/
structure Tiled [GivenUnits γ] (heap : Heap γ) (free live : List Span) : Prop where
  freeBlocks : heap.FreeBlocks free
  tiles : Tiles (free ++ live) heap.arenaUnits
  /-- A live block starts with a header that holds its size. -/
  headers : ∀ span ∈ live, 0 < span.2 ∧ (heap.arena.get span.1).size = span.2
  /-- The arena consists of the units that the strategy gave. -/
  sound : GivenUnits.Sound heap.growth
  given : GivenUnits.given heap.growth = heap.arenaUnits

/-- The list of the free blocks is read off the ring. -/
theorem FreeBlocks.freeList_eq (h : heap.FreeBlocks free) : heap.freeList = .ok free := by
  have hstep : ∀ (spans found : List Span) (steps : Nat), heap.Leads sentinel spans →
      (∀ span ∈ spans, span ∈ free) → spans.length < steps →
      heap.freeFrom steps (entry spans sentinel) found = .ok (found.reverse ++ spans) := by
    intro spans
    induction spans with
    | nil =>
      intro found steps _ _ hsteps
      obtain ⟨k, rfl⟩ : ∃ k, steps = k + 1 := ⟨steps - 1, by simp at hsteps; omega⟩
      simp [freeFrom]
    | cons span rest ih =>
      intro found steps hl hm hsteps
      obtain ⟨k, rfl⟩ : ∃ k, steps = k + 1 := ⟨steps - 1, by simp at hsteps; omega⟩
      obtain ⟨hspan, hrest⟩ := List.forall_mem_cons.mp hm
      rw [entry_cons, freeFrom, if_neg (h.ne_sentinel hspan),
        h.node_eq (List.mem_cons_of_mem _ hspan), Outcome.ok_bind, hl.1,
        ih _ k hl.2 hrest (by simpa using hsteps)]
      simp
  have hlength := h.length_le
  have hfirst : heap.first = entry free sentinel := h.linkOf_eq [] sentinelSpan free rfl
  rw [freeList, hfirst, hstep free [] _ h.leads.2 (fun _ hm => hm) (by omega)]
  rfl

/-- The free blocks do not depend on other memory than their headers. -/
theorem FreeBlocks.withArena (h : heap.FreeBlocks free) (arena : Arena)
    (same : ∀ span ∈ free, arena.get span.1 = heap.arena.get span.1) :
    FreeBlocks { heap with arena } free := by
  refine ⟨h.leads.congr ?_, ?_, h.apart, h.inside, h.cursor,
    h.counted, h.bounded⟩
  · intro span hm
    rcases List.mem_cons.mp hm with rfl | hm
    · rfl
    · unfold linkOf
      rw [same span hm]
  · intro span hm
    rw [← h.sizes span hm]
    unfold sizeOf
    rw [same span hm]

/-- An arena that gets larger keeps its free blocks. -/
theorem FreeBlocks.withUnits (h : heap.FreeBlocks free) (growth : γ) {arenaUnits : Nat}
    (hle : heap.arenaUnits ≤ arenaUnits) (hbound : arenaUnits ≤ 2 ^ 60) :
    FreeBlocks { heap with arenaUnits, growth } free := by
  refine ⟨h.leads.congr fun _ _ => rfl, h.sizes, h.apart, fun span hm => ?_, h.cursor, h.counted,
    hbound⟩
  have := h.inside span hm
  exact ⟨this.1, Nat.le_trans this.2 hle⟩

namespace Tiled

variable [GivenUnits γ]

/-- No free block is empty. -/
theorem free_pos (h : heap.Tiled free live) (hm : span ∈ free) : 0 < span.2 :=
  (h.freeBlocks.inside span hm).1

/-- Every live block ends within the arena. -/
theorem live_le (h : heap.Tiled free live) (hm : span ∈ live) :
    span.1 + span.2 ≤ heap.arenaUnits :=
  h.tiles.le (List.mem_append_right _ hm) (h.headers span hm).1

/-- A heap that has the same memory outside the free blocks has the same live blocks. -/
theorem keeps (h : heap.Tiled free live) (hagree : AgreeOutside free heap other) :
    Keeps live heap other :=
  fun _ hm unit hcover => hagree unit (h.tiles.not_covers hm hcover)

/-- The header of a block lies in the block. -/
theorem header_of_keeps (h : heap.Tiled free live) (hkeeps : Keeps live heap other)
    (hm : span ∈ live) : 0 < span.2 ∧ (other.arena.get span.1).size = span.2 := by
  obtain ⟨hpos, hsize⟩ := h.headers span hm
  rw [hkeeps span hm span.1 (covers_iff.mpr (by omega))]
  exact ⟨hpos, hsize⟩

/-- The order of the live blocks does not matter. -/
theorem perm {live' : List Span} (h : heap.Tiled free live) (hp : live'.Perm live) :
    heap.Tiled free live' :=
  ⟨h.freeBlocks, h.tiles.perm (hp.append_left free), fun span hm =>
    h.headers span (hp.mem_iff.mp hm), h.sound, h.given⟩

/-- A block that was taken is live, and the others are as they were. -/
theorem taken (h : heap.Tiled free live) {units block : Nat} {lower upper : List Span}
    (hpos : 0 < units) (t : Taken heap free units other block lower span upper) :
    other.Tiled (lower ++ (keep units span ++ upper)) ((block, units) :: live) ∧
      Keeps live heap other := by
  have hkeeps := h.keeps t.agree
  refine ⟨⟨t.freeBlocks, ?_, ?_, ?_, ?_⟩, hkeeps⟩
  · intro unit
    have hall := h.tiles unit
    have hkeep := countP_keep unit t.large
    rw [t.split] at hall
    rw [t.arenaUnits_eq, ← hall, t.block_eq]
    simp only [List.countP_append, List.countP_cons, List.countP_nil] at hkeep ⊢
    omega
  · exact List.forall_mem_cons.mpr ⟨⟨hpos, t.header⟩, fun _ hm => h.header_of_keeps hkeeps hm⟩
  · rw [t.growth_eq]
    exact h.sound
  · rw [t.growth_eq, t.arenaUnits_eq]
    exact h.given

/-- Giving back a live block makes it free. -/
theorem release (h : heap.Tiled free (span :: live)) :
    ∃ other, release span.1 heap = pure other ∧
      other.Tiled (Span.insert span free) live ∧ Keeps live heap other ∧
      other.growth = heap.growth := by
  obtain ⟨hpos, hheader⟩ := h.headers span List.mem_cons_self
  obtain ⟨other, hrelease, r⟩ := release_eq h.freeBlocks hpos (h.live_le List.mem_cons_self)
    hheader fun a ha => h.tiles.disjoint ha List.mem_cons_self (h.free_pos ha) hpos
  have hperm : (span :: free ++ live).Perm (free ++ span :: live) := List.perm_middle.symm
  have hkeeps : Keeps live heap other := fun a ha unit hcover =>
    r.agree unit ((h.tiles.perm hperm).not_covers ha hcover)
  refine ⟨other, hrelease, ⟨r.freeBlocks, ?_, ?_, ?_, ?_⟩, hkeeps, r.growth_eq⟩
  · rw [r.arenaUnits_eq]
    exact h.tiles.insert
  · intro a ha
    have := h.headers a (List.mem_cons_of_mem _ ha)
    rw [hkeeps a ha a.1 (covers_iff.mpr (by omega))]
    exact this
  · rw [r.growth_eq]
    exact h.sound
  · rw [r.growth_eq, r.arenaUnits_eq]
    exact h.given

/-- Writing to the payload of a live block changes no other block and no header. -/
theorem write (h : heap.Tiled free (span :: live)) {count : Nat} (source : Nat → HeapUnit)
    (hfit : (count + 15) / 16 < span.2) :
    Tiled { heap with arena := heap.arena.writeFrom (span.1 + 1) count source } free
        (span :: live) ∧
      Keeps live heap { heap with arena := heap.arena.writeFrom (span.1 + 1) count source } := by
  obtain ⟨hpos, hheader⟩ := h.headers span List.mem_cons_self
  -- A unit that does not lie in the block, or is its header, is not written.
  have hsame : ∀ unit, unit ≤ span.1 ∨ covers unit span = false →
      (heap.arena.writeFrom (span.1 + 1) count source).get unit = heap.arena.get unit := by
    intro unit hout
    apply Arena.get_writeFrom _ source
    rw [← Bool.not_eq_true, covers_iff] at hout
    omega
  have hothers : ∀ a ∈ free ++ live, ∀ unit, covers unit a = true → covers unit span = false := by
    intro a ha unit hcover
    exact h.tiles.focus.not_covers ha hcover span (List.mem_singleton.mpr rfl)
  have hkeeps : Keeps live heap
      { heap with arena := heap.arena.writeFrom (span.1 + 1) count source } :=
    fun a ha unit hcover => hsame unit (.inr (hothers a (List.mem_append_right _ ha) unit hcover))
  refine ⟨⟨h.freeBlocks.withArena _ ?_, h.tiles, ?_, h.sound, h.given⟩, hkeeps⟩
  · intro a ha
    have := h.free_pos ha
    exact hsame a.1 (.inr (hothers a (List.mem_append_left _ ha) a.1 (covers_iff.mpr (by omega))))
  · refine List.forall_mem_cons.mpr ⟨⟨hpos, ?_⟩, ?_⟩
    · exact (congrArg HeapUnit.size (hsame span.1 (.inl (Nat.le_refl _)))).trans hheader
    · intro a ha
      have := h.headers a (List.mem_cons_of_mem _ ha)
      rw [hkeeps a ha a.1 (covers_iff.mpr (by omega))]
      exact this

end Tiled

/-! ## Growth -/

/-- The heap after a strategy became `growth`, with the units that it added as one more block at
the end of the arena. -/
def lengthened (heap : Heap γ) (growth : γ) (added : Nat) : Heap γ :=
  { heap with
    arena := heap.arena.set heap.arenaUnits ⟨0, added⟩
    arenaUnits := heap.arenaUnits + added
    growth }

/-- Only the unit behind the arena is written. -/
theorem get_lengthened (growth : γ) (added : Nat) {unit : Nat} (h : unit ≠ heap.arenaUnits) :
    (heap.lengthened growth added).arena.get unit = heap.arena.get unit := by
  show (heap.arena.set heap.arenaUnits ⟨0, added⟩).get unit = _
  rw [Arena.get_set, if_neg h]

/-- Making the arena longer keeps the memory of the live blocks. -/
theorem Tiled.keeps_lengthened [GivenUnits γ] (h : heap.Tiled free live) (growth : γ)
    (added : Nat) : Keeps live heap (heap.lengthened growth added) := by
  intro span hm unit hcover
  have := h.live_le hm
  rw [covers_iff] at hcover
  exact get_lengthened growth added (by omega)

variable [ArenaRegion γ] [ArenaGrowth γ β]

/-- How a request for units that is answered was asked: once, as a worthwhile step, and if that was
refused and fewer units would do, once more for these. -/
inductive Requested (units : Nat) (growth : γ) (pages : β) (answer : Except GrowthError Nat)
    (growth' : γ) (pages' : β) : Prop
  | once
      (step : (ArenaGrowth.extend (max units (ArenaRegion.minChunk growth)) growth pages).outcome =
        .ok (answer, growth', pages'))
      (done : ∀ cause, answer = .error cause → ¬units < max units (ArenaRegion.minChunk growth))
  | twice {cause : GrowthError} {middle : γ} {between : β}
      (step : (ArenaGrowth.extend (max units (ArenaRegion.minChunk growth)) growth pages).outcome =
        .ok (.error cause, middle, between))
      (again : (ArenaGrowth.extend units middle between).outcome = .ok (answer, growth', pages'))

/-- A request for units, if it is answered, was asked in one of these ways. -/
theorem requested_of_outcome {units : Nat} {growth growth' : γ} {pages pages' : β}
    {answer : Except GrowthError Nat}
    (hr : (requestUnits units growth pages).outcome = .ok (answer, growth', pages')) :
    Requested units growth pages answer growth' pages' := by
  unfold requestUnits at hr
  simp only [Traced.outcome_bind, Outcome.bind_eq_ok] at hr
  obtain ⟨⟨first, middle, between⟩, hfirst, hr⟩ := hr
  cases first with
  | ok added =>
    cases hr
    exact .once hfirst nofun
  | error cause =>
    simp only at hr
    split_ifs at hr with fewer
    · simp only [Traced.outcome_bind, Traced.outcome_report, Outcome.ok_bind] at hr
      exact .twice hfirst hr
    · cases hr
      exact .once hfirst fun _ _ => fewer

/-- Growing is a request to the strategy, and giving back what it adds. -/
theorem grow_outcome {units added : Nat} {growth : γ} {pages pages' : β}
    (hrequest : (requestUnits units heap.growth pages).outcome = .ok (.ok added, growth, pages'))
    (hpos : 0 < added) (hbound : heap.arenaUnits + added ≤ 2 ^ 60) {other : Heap γ}
    (hrelease : release heap.arenaUnits (heap.lengthened growth added) = pure other) :
    (Heap.grow units heap pages).outcome = .ok (.ok (), other, pages') := by
  have hwithin : Within { heap with
      arenaUnits := heap.arenaUnits + added, growth } heap.arenaUnits := by
    right
    show heap.arenaUnits < heap.arenaUnits + added
    omega
  have hput : put { heap with arenaUnits := heap.arenaUnits + added, growth }
      heap.arenaUnits ⟨0, added⟩ = heap.lengthened growth added := by
    unfold put sentinel
    rw [if_neg (by omega)]
    rfl
  simp only [Heap.grow, hrequest, Nat.ne_of_gt hpos, Traced.outcome_bind, Outcome.ok_bind,
    ↓reduceIte, Traced.outcome_liftM,
    Word.add_eq_ok (show heap.arenaUnits + added < 2 ^ 64 by omega), setNode_eq _ hwithin, hput,
    Traced.outcome_report, hrelease, Traced.outcome_pure]

variable [GivenUnits γ]

/-- A strategy that added nothing leaves the blocks as they are. -/
theorem Tiled.unchanged (h : heap.Tiled free live) {growth : γ} {answer : Except GrowthError Nat}
    (hext : Extends heap.growth growth answer) (hadded : GrowthError.added answer = 0) :
    Tiled { heap with growth } free live := by
  refine ⟨h.freeBlocks.withUnits growth (Nat.le_refl _) h.freeBlocks.bounded, h.tiles, h.headers,
    hext.sound, ?_⟩
  rw [hext.given, h.given, hadded]
  rfl

/-- The units that were added are a live block until they are given back. -/
theorem Tiled.lengthened (h : heap.Tiled free live) {growth : γ} {added : Nat}
    (hext : Extends heap.growth growth (.ok added)) (hpos : 0 < added)
    (hbound : heap.arenaUnits + added ≤ 2 ^ 60) :
    (heap.lengthened growth added).Tiled free ((heap.arenaUnits, added) :: live) := by
  have hgiven := hext.given
  rw [h.given] at hgiven
  refine ⟨?_, ?_, ?_, hext.sound, hgiven⟩
  · apply (h.freeBlocks.withUnits growth (Nat.le_add_right _ added) hbound).withArena _
    intro span hm
    have := h.freeBlocks.inside span hm
    exact get_lengthened growth added (by omega)
  · exact h.tiles.lengthen added
  · refine List.forall_mem_cons.mpr ⟨⟨hpos, ?_⟩,
      fun span hm => h.header_of_keeps (h.keeps_lengthened growth added) hm⟩
    show ((heap.arena.set heap.arenaUnits ⟨0, added⟩).get heap.arenaUnits).size = _
    rw [Arena.get_set, if_pos rfl]

variable [LawfulGrowth γ β]

/-- Asking twice is an extension, too. -/
theorem requestUnits_ok {units : Nat} {growth growth' : γ} {pages pages' : β}
    {answer : Except GrowthError Nat} (h : GivenUnits.Sound growth)
    (hr : (requestUnits units growth pages).outcome = .ok (answer, growth', pages')) :
    Extends growth growth' answer := by
  cases requested_of_outcome hr with
  | once step done => exact LawfulGrowth.extend h step
  | twice step again =>
    have hext := LawfulGrowth.extend h step
    have hagain := LawfulGrowth.extend hext.sound again
    refine ⟨hagain.sound, hagain.base.trans hext.base, ?_⟩
    rw [hagain.given, hext.given]
    rfl

omit [LawfulGrowth γ β] in
/-- Asking twice gives at least what was asked for. -/
theorem requestUnits_ample [AmpleGrowth γ β] {units added : Nat} {growth growth' : γ}
    {pages pages' : β}
    (hr : (requestUnits units growth pages).outcome = .ok (.ok added, growth', pages')) :
    units ≤ added := by
  cases requested_of_outcome hr with
  | once step done => exact Nat.le_trans (Nat.le_max_left _ _) (AmpleGrowth.le_added step)
  | twice step again => exact AmpleGrowth.le_added again

omit [LawfulGrowth γ β] in
/-- Only an error adds nothing. -/
theorem requestUnits_refused [AmpleGrowth γ β] {units : Nat} {growth growth' : γ}
    {pages pages' : β} {answer : Except GrowthError Nat}
    (hr : (requestUnits units growth pages).outcome = .ok (answer, growth', pages'))
    (hnothing : GrowthError.added answer = 0) (hpos : 0 < units) :
    ∃ cause, answer = .error cause := by
  cases answer with
  | error cause => exact ⟨cause, rfl⟩
  | ok added =>
    have hle := requestUnits_ample hr
    have hzero : added = 0 := hnothing
    omega

/-- What growing comes to. It faults if the strategy does, it is refused if the strategy adds
nothing, and otherwise the units that were added are free. -/
theorem Tiled.grow_cases (h : heap.Tiled free live) (units : Nat) (pages : β) :
    (∃ fault, (grow units heap pages).outcome = .error fault ∧
        (requestUnits units heap.growth pages).outcome = .error fault) ∨
      (∃ answer growth pages', (requestUnits units heap.growth pages).outcome =
          .ok (answer, growth, pages') ∧ GrowthError.added answer = 0 ∧
        (Heap.grow units heap pages).outcome =
          .ok (.error .arenaExhausted, { heap with growth }, pages')) ∨
      ∃ added other pages', (requestUnits units heap.growth pages).outcome =
          .ok (.ok added, other.growth, pages') ∧
        (Heap.grow units heap pages).outcome = .ok (.ok (), other, pages') ∧
        other.Tiled (Span.insert (heap.arenaUnits, added) free) live ∧ Keeps live heap other := by
  cases hrequest : (requestUnits units heap.growth pages).outcome with
  | error fault =>
    left
    exact ⟨fault, by simp [Heap.grow, hrequest], rfl⟩
  | ok result =>
    obtain ⟨answer, growth, pages'⟩ := result
    right
    have hext := requestUnits_ok h.sound hrequest
    cases answer with
    | error cause =>
      left
      exact ⟨_, growth, pages', rfl, rfl, by simp [Heap.grow, hrequest]⟩
    | ok added =>
      rcases Nat.eq_zero_or_pos added with hzero | hpos
      · left
        exact ⟨_, growth, pages', rfl, hzero, by simp [Heap.grow, hrequest, hzero]⟩
      · right
        have hbound : heap.arenaUnits + added ≤ 2 ^ 60 := by
          have hle := LawfulGrowth.given_le β hext.sound
          rwa [hext.given, h.given] at hle
        obtain ⟨other, hrelease, htiled, hkept, rfl⟩ := (h.lengthened hext hpos hbound).release
        exact ⟨added, other, pages', rfl, grow_outcome hrequest hpos hbound hrelease, htiled,
          (h.keeps_lengthened other.growth added).trans hkept⟩

end Heap

end BootMemory
