import BootMemory.Proofs.Heap.Run

/-!
# What a heap leaves to its strategy

A heap touches its strategy, and the pages behind it, in one way only: it asks for units. So
whatever extensions keep (`KeptByGrowth`), every call of a heap keeps (`HeapRun.Trace.kept`), and if
extensions do not fault, then neither does any legal call (`HeapRun.Sound.step_ok`).
-/

set_option autoImplicit false

namespace BootMemory

open Heap BootMemory.Span

variable {γ β : Type} [ArenaRegion γ] [ArenaGrowth γ β]

/-- What holds of the strategy and its pages still holds when an extension has gone through. -/
def KeptByGrowth (holds : γ → β → Prop) : Prop :=
  ∀ ⦃units : Nat⦄ ⦃growth growth' : γ⦄ ⦃pages pages' : β⦄ ⦃answer : Except GrowthError Nat⦄,
    holds growth pages →
      (ArenaGrowth.extend units growth pages).outcome = .ok (answer, growth', pages') →
        holds growth' pages'

/-- Extensions go through as long as something holds of the strategy and its pages. -/
def FaultlessGrowth (holds : γ → β → Prop) : Prop :=
  ∀ ⦃growth : γ⦄ ⦃pages : β⦄ (units : Nat), holds growth pages →
    ∃ result, (ArenaGrowth.extend units growth pages).outcome = .ok result

variable {holds : γ → β → Prop} {growth growth' : γ} {pages pages' : β}

/-- Asking twice keeps what extensions keep. -/
theorem KeptByGrowth.requestUnits (kept : KeptByGrowth holds) {units : Nat}
    {answer : Except GrowthError Nat} (h : holds growth pages)
    (hr : (requestUnits units growth pages).outcome = .ok (answer, growth', pages')) :
    holds growth' pages' := by
  cases requested_of_outcome hr with
  | once step done => exact kept h step
  | twice step again => exact kept (kept h step) again

/-- Asking twice goes through as extensions do. -/
theorem FaultlessGrowth.requestUnits (faultless : FaultlessGrowth holds)
    (kept : KeptByGrowth holds) (units : Nat) (h : holds growth pages) :
    ∃ result, (requestUnits units growth pages).outcome = .ok result := by
  unfold Heap.requestUnits
  obtain ⟨⟨first, middle, between⟩, hfirst⟩ := faultless (max units (ArenaRegion.minChunk growth)) h
  simp only [Traced.outcome_bind, hfirst, Outcome.ok_bind]
  cases first with
  | ok added => exact ⟨_, rfl⟩
  | error cause =>
    simp only
    split_ifs
    · simp only [Traced.outcome_bind, Traced.outcome_report, Outcome.ok_bind]
      exact faultless units (kept h hfirst)
    · exact ⟨_, rfl⟩

section Heap

variable [GivenUnits γ] [LawfulGrowth γ β] {heap other : Heap γ} {free live : List Span}
  {bytes : Nat} {answer : Except HeapError Nat}

/-- Serving a block asks for units at most once. -/
theorem Heap.Tiled.allocateBlock_kept (kept : KeptByGrowth holds) (h : heap.Tiled free live)
    (hheap : holds heap.growth pages)
    (ha : (Heap.allocateBlock bytes heap pages).outcome = .ok (answer, other, pages')) :
    holds other.growth pages' := by
  rcases Nat.eq_zero_or_pos bytes with rfl | hbytes
  · cases ha
    exact hheap
  have hends := h.allocateBlock_ends hbytes pages
  rw [ha] at hends
  cases hends with
  | fits first taken => rwa [taken.growth_eq]
  | refused small request nothing => exact kept.requestUnits hheap request
  | short small request tiled keeps less => exact kept.requestUnits hheap request
  | grows small request tiled keeps taken =>
    rw [taken.growth_eq]
    exact kept.requestUnits hheap request

/-- What is done with a block that was served may change the memory of the arena only. -/
theorem Heap.Tiled.finish_kept (kept : KeptByGrowth holds) (h : heap.Tiled free live)
    (hheap : holds heap.growth pages)
    {finish : Nat → Heap γ → β → Traced (Except HeapError Nat × Heap γ × β)}
    (hfinish : ∀ {block middle between answer other pages'},
      (finish block middle between).outcome = .ok (answer, other, pages') →
        other.growth = middle.growth ∧ pages' = between)
    (ha : (do
      match ← Heap.allocateBlock bytes heap pages with
      | (.error cause, heap, pages) => return (Except.error cause, heap, pages)
      | (.ok block, heap, pages) => finish block heap pages).outcome =
        .ok (answer, other, pages')) : holds other.growth pages' := by
  simp only [Traced.outcome_bind, Outcome.bind_eq_ok] at ha
  obtain ⟨⟨block, middle, between⟩, hblock, ha⟩ := ha
  have hnext := h.allocateBlock_kept kept hheap hblock
  cases block with
  | error cause =>
    cases ha
    exact hnext
  | ok block =>
    obtain ⟨hgrowth, rfl⟩ := hfinish ha
    rwa [hgrowth]

/-- What extensions keep is kept by a request for bytes. -/
theorem Heap.Tiled.allocate_kept (kept : KeptByGrowth holds) (h : heap.Tiled free live)
    (hheap : holds heap.growth pages)
    (ha : (Heap.allocate bytes heap pages).outcome = .ok (answer, other, pages')) :
    holds other.growth pages' := by
  refine h.finish_kept kept hheap ?_ ha
  intro block middle between answer other pages' hend
  simp only [Traced.outcome_bind, Traced.outcome_liftM, Outcome.bind_eq_ok] at hend
  obtain ⟨pointer, -, hend⟩ := hend
  cases hend
  exact ⟨rfl, rfl⟩

/-- What extensions keep is kept by a request for cleared bytes. -/
theorem Heap.Tiled.allocateZeroed_kept (kept : KeptByGrowth holds) (h : heap.Tiled free live)
    (hheap : holds heap.growth pages)
    (ha : (Heap.allocateZeroed bytes heap pages).outcome = .ok (answer, other, pages')) :
    holds other.growth pages' := by
  refine h.finish_kept kept hheap ?_ ha
  intro block middle between answer other pages' hend
  simp only [Traced.outcome_bind, Traced.outcome_liftM, Outcome.bind_eq_ok] at hend
  obtain ⟨pointer, -, hend⟩ := hend
  cases hend
  exact ⟨rfl, rfl⟩

/-- What extensions keep is kept by a request for a layout. -/
theorem Heap.Tiled.allocateLayout_kept (kept : KeptByGrowth holds) (h : heap.Tiled free live)
    {layout : BlockLayout} (hheap : holds heap.growth pages)
    (ha : (Heap.allocateLayout layout heap pages).outcome = .ok (answer, other, pages')) :
    holds other.growth pages' := by
  unfold Heap.allocateLayout at ha
  split_ifs at ha
  · cases ha
    exact hheap
  · exact h.allocate_kept kept hheap ha

end Heap

/-! ## Runs -/

namespace HeapRun

variable {run later : HeapRun γ β} {free : List Span} {call : HeapCall} {calls : List HeapCall}

omit [ArenaRegion γ] [ArenaGrowth γ β] in
/-- What holds of the strategy and the pages that a request leaves holds after it was noted. -/
theorem record_kept {live : List Grant} {bytes : Nat}
    {request : Traced (Except HeapError Nat × Heap γ × β)}
    (hrequest : ∀ {answer other pages'}, request.outcome = .ok (answer, other, pages') →
      holds other.growth pages')
    (hstep : (record live bytes <$> request).outcome = .ok later) :
    holds later.heap.growth later.pages := by
  rw [Traced.outcome_map] at hstep
  cases houtcome : request.outcome with
  | error fault =>
    rw [houtcome] at hstep
    cases hstep
  | ok result =>
    obtain ⟨answer, other, pages'⟩ := result
    have hnext := hrequest houtcome
    rw [houtcome] at hstep
    cases hstep
    cases answer <;> exact hnext

variable [GivenUnits γ]

/-- A live block can be given back, which leaves the strategy alone. -/
theorem Sound.free_live (h : run.Sound free) {grant : Grant} (hgrant : grant ∈ run.live) :
    ∃ heap, (run.heap.free grant.pointer).outcome = .ok heap ∧
      heap.growth = run.heap.growth := by
  obtain ⟨next, -, g⟩ := h.gives_back hgrant
  exact ⟨next.heap, congrArg Traced.outcome g.freed, g.growth_eq⟩

variable [LawfulGrowth γ β]

/-- A legal call that goes through keeps what extensions keep. -/
theorem Sound.step_kept (kept : KeptByGrowth holds) (h : run.Sound free)
    (hrun : holds run.heap.growth run.pages) (legal : run.Legal call)
    (hstep : (run.step call).outcome = .ok later) : holds later.heap.growth later.pages := by
  cases call with
  | allocate bytes => exact record_kept (h.tiled.allocate_kept kept hrun) hstep
  | allocateLayout layout => exact record_kept (h.tiled.allocateLayout_kept kept hrun) hstep
  | allocateZeroed bytes => exact record_kept (h.tiled.allocateZeroed_kept kept hrun) hstep
  | free pointer =>
    simp only [HeapRun.step, Traced.outcome_bind, Outcome.bind_eq_ok] at hstep
    obtain ⟨heap, hfree, hstep⟩ := hstep
    cases hstep
    obtain ⟨grant, hgrant, rfl⟩ := legal
    obtain ⟨heap', hheap, hgrowth⟩ := h.free_live hgrant
    rw [hheap] at hfree
    cases hfree
    show holds heap.growth run.pages
    rwa [hgrowth]
  | store pointer count source =>
    cases hstep
    exact hrun

/-- An arena never loses units. -/
theorem Sound.arenaUnits_le (h : run.Sound free) (legal : run.Legal call)
    (hstep : (run.step call).outcome = .ok later) :
    run.heap.arenaUnits ≤ later.heap.arenaUnits := by
  have kept : KeptByGrowth fun (growth : γ) (_ : β) =>
      GivenUnits.Sound growth ∧ run.heap.arenaUnits ≤ GivenUnits.given growth := by
    rintro units growth growth' pages pages' answer ⟨hsound, hle⟩ he
    have hext := LawfulGrowth.extend hsound he
    refine ⟨hext.sound, ?_⟩
    rw [hext.given]
    exact Nat.le_add_right_of_le hle
  obtain ⟨free', hlater⟩ := (h.follows legal hstep).sound
  rw [← hlater.tiled.given]
  exact (h.step_kept kept ⟨h.tiled.sound, h.tiled.given.ge⟩ legal hstep).2

/-- A legal call goes through if extensions do. -/
theorem Sound.step_ok (faultless : FaultlessGrowth holds) (kept : KeptByGrowth holds)
    (h : run.Sound free) (hrun : holds run.heap.growth run.pages) (legal : run.Legal call) :
    ∃ next, (run.step call).outcome = .ok next ∧ Follows run call next := by
  rcases h.step legal with ⟨units, fault, -, hfault⟩ | hnext
  · obtain ⟨result, hrequest⟩ := faultless.requestUnits kept units hrun
    rw [hrequest] at hfault
    cases hfault
  · exact hnext

/-- However many legal calls are made, the run stays sound and keeps what extensions keep. -/
theorem Trace.kept (kept : KeptByGrowth holds) (htrace : Trace run calls later)
    (h : run.Sound free) (hrun : holds run.heap.growth run.pages) :
    (∃ free, later.Sound free) ∧ holds later.heap.growth later.pages ∧ later.base = run.base := by
  induction htrace generalizing free with
  | done run => exact ⟨⟨free, h⟩, hrun, rfl⟩
  | call legal hstep rest ih =>
    have hnext := h.step_kept kept hrun legal hstep
    have follows := h.follows legal hstep
    obtain ⟨free', hsound⟩ := follows.sound
    obtain ⟨hlater, hlast, hbase⟩ := ih hsound hnext
    exact ⟨hlater, hlast, hbase.trans follows.base_eq⟩

end HeapRun

/-! ## The two strategies -/

section

variable {β : Type}

/-- A break stays in its region. -/
theorem BumpBreak.kept_within (first : BumpBreak) :
    KeptByGrowth fun (bump : BumpBreak) (_ : β) =>
      bump.base = first.base ∧ bump.capacity = first.capacity ∧ bump.used ≤ bump.capacity := by
  rintro units bump other pages pages' answer ⟨hbase, hcapacity, hused⟩ he
  rw [extend_outcome, Except.ok.injEq, Prod.mk.injEq, Prod.mk.injEq] at he
  obtain ⟨-, rfl, -⟩ := he
  unfold BumpBreak.extend
  cases hadvance : advance? bump.used units bump.capacity with
  | none => exact ⟨hbase, hcapacity, hused⟩
  | some used => exact ⟨hbase, hcapacity, (advance?_eq_some hadvance).2.1⟩

/-- Moving a break needs no pages. -/
theorem BumpBreak.kept_pages (first : β) :
    KeptByGrowth fun (_ : BumpBreak) (pages : β) => pages = first := by
  rintro units bump other pages pages' answer hpages he
  rw [extend_outcome, Except.ok.injEq, Prod.mk.injEq, Prod.mk.injEq] at he
  exact he.2.2 ▸ hpages

/-- Extensions of a region never fault. -/
theorem BumpBreak.faultless (holds : BumpBreak → β → Prop) : FaultlessGrowth holds :=
  fun _ _ units _ => ⟨_, extend_outcome units _ _⟩

/-- A break refuses what does not fit behind it, and nothing else: if a worthwhile step is too
large, the bare need may still fit. -/
theorem BumpBreak.requestUnits_outcome (units : Nat) (bump : BumpBreak) (pages : β) :
    ∃ answer other, (requestUnits units bump pages).outcome = .ok (answer, other, pages) ∧
      ((∃ cause, answer = .error cause) ↔ advance? bump.used units bump.capacity = none) := by
  unfold requestUnits
  simp only [Traced.outcome_bind, extend_outcome, Outcome.ok_bind]
  cases hstep : advance? bump.used (max units (ArenaRegion.minChunk bump)) bump.capacity with
  | some used =>
    rw [extend_of_some hstep]
    refine ⟨_, _, rfl, iff_of_false nofun ?_⟩
    intro hnone
    rw [advance?_eq_none_of_le (Nat.le_max_left _ _) hnone] at hstep
    cases hstep
  | none =>
    rw [extend_of_none hstep]
    simp only
    split_ifs with fewer
    · simp only [Traced.outcome_bind, Traced.outcome_report, Outcome.ok_bind, extend_outcome]
      cases hbare : advance? bump.used units bump.capacity with
      | some used =>
        rw [extend_of_some hbare]
        exact ⟨_, _, rfl, iff_of_false nofun nofun⟩
      | none =>
        rw [extend_of_none hbare]
        exact ⟨_, _, rfl, iff_of_true ⟨_, rfl⟩ rfl⟩
    · rw [Nat.max_eq_left (Nat.le_of_not_lt (fewer ∘ lt_max_of_lt_right))] at hstep
      exact ⟨_, _, rfl, iff_of_true ⟨_, rfl⟩ hstep⟩

namespace PagedGrowth

/-- The same window, of which the arena has no less than before. -/
structure Continues (first growth : PagedGrowth) : Prop where
  window_eq : growth.window = first.window
  start_eq : growth.start = first.start
  maxBytes_eq : growth.maxBytes = first.maxBytes
  brk_le : first.brk ≤ growth.brk

variable [PageBacking β] {first growth other : PagedGrowth} {pages pages' : β} {bytes units : Nat}

/-- A window goes on with itself. -/
protected theorem Continues.refl (growth : PagedGrowth) : Continues growth growth :=
  ⟨rfl, rfl, rfl, Nat.le_refl _⟩

/-- What goes on with a window that goes on with another goes on with that one. -/
theorem Continues.trans (h : Continues first growth) (h' : Continues growth other) :
    Continues first other :=
  ⟨h'.window_eq.trans h.window_eq, h'.start_eq.trans h.start_eq,
    h'.maxBytes_eq.trans h.maxBytes_eq, Nat.le_trans h.brk_le h'.brk_le⟩

/-- Backing pages beforehand goes on with the same window. -/
theorem continues_prefill {answer : Except GrowthError Unit}
    (hp : (prefill bytes growth pages).outcome = .ok (answer, other, pages')) :
    Continues growth other := by
  unfold prefill at hp
  split_ifs at hp
  · cases hp
    exact .refl _
  · rcases backUntil_ok hp with ⟨-, -, rfl⟩ | ⟨-, rfl⟩
    · exact .refl _
    · exact ⟨rfl, rfl, rfl, Nat.le_refl _⟩

/-- An extension goes on with the same window. -/
theorem InOrder.continues_extend (h : growth.InOrder) {answer : Except GrowthError Nat}
    (he : (ArenaGrowth.extend units growth pages).outcome = .ok (answer, other, pages')) :
    Continues growth other := by
  cases extendEnds_of_outcome he with
  | short advance => exact .refl _
  | unbacked advance backed => exact .refl _
  | given advance backed stop_eq =>
    have hin := h.backed (advance?_eq_some advance).2.1
    rw [← stop_eq] at hin
    exact ⟨rfl, rfl, rfl, hin.brk_le⟩

/-- A window stays where it is, and what was given to the arena stays there. -/
theorem kept_continues (first : PagedGrowth) :
    KeptByGrowth fun (growth : PagedGrowth) (_ : β) => growth.InOrder ∧ Continues first growth :=
  fun _ _ _ _ _ _ h he => ⟨(h.1.extend he).sound, h.2.trans (h.1.continues_extend he)⟩

end PagedGrowth

end

end BootMemory
