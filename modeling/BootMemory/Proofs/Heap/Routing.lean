import BootMemory.Proofs.Heap.Coalescing
import BootMemory.Proofs.Heap.Ownership
import BootMemory.Proofs.Heap.Supply

/-!
# Runs of the bootstrap heap and the kernel heap

Requests go to the kernel heap as soon as there is one, and to the bootstrap heap before; blocks
that were served early are freed late. A run of both (`GlobalRun`) keeps two lists of live blocks,
those from before and those from after the switch, and each call of it is a call of one of the two
heaps. So each heap is a sound run of its own (`GlobalRun.Sound.step`), and every block finds its
way back to the heap that served it (`GlobalRun.every_run_routed`).
-/

set_option autoImplicit false

namespace BootMemory

open Heap BootMemory.Span

variable {β : Type}

/-- An arena of which everything has come back is one free block. -/
theorem HeapRun.Merged.whole {γ : Type} [ArenaRegion γ] {run : HeapRun γ β} (h : run.Merged)
    (hlive : run.live = []) (hunits : 0 < run.heap.arenaUnits) :
    run.heap.freeBlocks = .ok 1 ∧ run.heap.freeUnits = run.heap.arenaUnits := by
  obtain ⟨free, hcoalesced, hwhole⟩ := h
  obtain ⟨rfl, hfree⟩ := hwhole hlive hunits
  exact ⟨hcoalesced.counted, hfree⟩

/-! ## Heaps to install -/

/-- A heap over a region that is new, or of which everything has come back. -/
def BumpBreak.Idle (heap : Heap BumpBreak) : Prop :=
  ∃ arena base bytes calls,
    HeapRun.Trace (HeapRun.start arena (.ofRegion base bytes) ()) calls ⟨heap, (), []⟩

/-- A heap over a window that is new, or of which everything has come back. -/
def PagedGrowth.Idle (β : Type) [PageBacking β] (heap : Heap PagedGrowth) : Prop :=
  ∃ (arena : Arena) (growth : PagedGrowth) (pages pages' : β) (calls : List HeapCall),
    growth.Unused pages ∧ HeapRun.Trace (.start arena growth pages) calls ⟨heap, pages', []⟩

/-- A heap over an idle region is sound without live blocks, over any pages, and has stayed in its
region. -/
theorem BumpBreak.Idle.sound {heap : Heap BumpBreak} (h : BumpBreak.Idle heap) (pages : β) :
    (∃ free, HeapRun.Sound (⟨heap, pages, []⟩ : HeapRun BumpBreak β) free) ∧
      heap.growth.used ≤ heap.growth.capacity := by
  obtain ⟨arena, base, bytes, calls, htrace⟩ := h
  obtain ⟨⟨free, hsound⟩, ⟨-, -, hused⟩, -⟩ := htrace.kept (BumpBreak.kept_within _)
    (HeapRun.sound_start arena () (BumpBreak.sound_ofRegion base bytes)
      (BumpBreak.given_ofRegion base bytes)) ⟨rfl, rfl, Nat.zero_le _⟩
  exact ⟨⟨free, hsound.withPages pages⟩, hused⟩

/-- A heap over an idle window is sound without live blocks, over any pages. -/
theorem PagedGrowth.Idle.sound [PageBacking β] {heap : Heap PagedGrowth}
    (h : PagedGrowth.Idle β heap) (pages : β) :
    ∃ free, HeapRun.Sound (⟨heap, pages, []⟩ : HeapRun PagedGrowth β) free := by
  obtain ⟨arena, growth, first, last, calls, hunused, htrace⟩ := h
  obtain ⟨free, hsound⟩ := HeapRun.sound_of_trace arena hunused.sound hunused.given htrace
  exact ⟨free, hsound.withPages pages⟩

/-! ## Two heaps in use -/

/-- The two heaps in use: the fixed region, where the pages of the kernel heap come from, and the
live blocks. -/
structure GlobalRun (β : Type) where
  global : GlobalHeap
  region : BootstrapRegion
  pages : β
  /-- The live blocks that were served before there was a kernel heap. -/
  early : List Grant
  /-- The live blocks that were served since there is one. -/
  late : List Grant

/-- A call of the two heaps, or a write of a user to a payload. -/
inductive GlobalCall where
  | installBootstrap (heap : Heap BumpBreak)
  | installKernel (heap : Heap PagedGrowth)
  | allocate (layout : BlockLayout)
  | deallocate (pointer : Nat)
  | store (pointer count : Nat) (source : Nat → HeapUnit)

namespace GlobalRun

/-- No heap is there, and no block was served. -/
def start (region : BootstrapRegion) (pages : β) : GlobalRun β := ⟨.empty, region, pages, [], []⟩

/-- The run after a request for a layout was answered. -/
def noted (run : GlobalRun β) (layout : BlockLayout) :
    Option Nat × GlobalHeap × BootstrapRegion × β → GlobalRun β
  | (none, global, region, pages) => { run with global, region, pages }
  | (some pointer, global, region, pages) =>
    if run.global.kernel.isSome then
      { run with global, region, pages, late := ⟨pointer, layout.size⟩ :: run.late }
    else
      { run with global, region, pages, early := ⟨pointer, layout.size⟩ :: run.early }

/-- The bootstrap heap as a run of its own. -/
def ofBootstrap (run : GlobalRun β) (heap : Heap BumpBreak) : HeapRun BumpBreak β :=
  ⟨heap, run.pages, run.early⟩

/-- The kernel heap as a run of its own. -/
def ofKernel (run : GlobalRun β) (heap : Heap PagedGrowth) : HeapRun PagedGrowth β :=
  ⟨heap, run.pages, run.late⟩

/-- The run with what became of the bootstrap heap. -/
def withBootstrap (run : GlobalRun β) (next : HeapRun BumpBreak β) : GlobalRun β :=
  { run with
    global := { run.global with bootstrap := some next.heap }
    pages := next.pages
    early := next.live }

/-- The run with what became of the kernel heap. -/
def withKernel (run : GlobalRun β) (next : HeapRun PagedGrowth β) : GlobalRun β :=
  { run with
    global := { run.global with kernel := some next.heap }
    pages := next.pages
    late := next.live }

/-- The run after the bootstrap heap was looked for, and was made in the fixed region if there was
none. -/
def claimed (run : GlobalRun β) : GlobalRun β :=
  let (bootstrap, region) := run.global.claimBootstrap run.region
  { run with global := { run.global with bootstrap }, region }

variable {run : GlobalRun β} {lower : Heap BumpBreak} {upper : Heap PagedGrowth}

/-- Both heaps are sound runs, the bootstrap heap stays in its region, and region and window have no
byte in common. -/
structure Sound (run : GlobalRun β) : Prop where
  bootstrap : ∀ lower, run.global.bootstrap = some lower →
    (∃ free, (run.ofBootstrap lower).Sound free) ∧ lower.growth.used ≤ lower.growth.capacity
  kernel : ∀ upper, run.global.kernel = some upper → ∃ free, (run.ofKernel upper).Sound free
  early_eq_nil : run.global.bootstrap = none → run.early = []
  late_eq_nil : run.global.kernel = none → run.late = []
  separate : ∀ lower upper, run.global.bootstrap = some lower → run.global.kernel = some upper →
    Separate lower.growth upper.growth

/-- Without heaps everything is sound. -/
theorem sound_start (region : BootstrapRegion) (pages : β) : (start region pages).Sound :=
  ⟨nofun, nofun, fun _ => rfl, fun _ => rfl, nofun⟩

namespace Sound

/-- The bootstrap heap may become another sound one. -/
theorem withBootstrap (h : run.Sound) {next : HeapRun BumpBreak β}
    (hnext : ∃ free, next.Sound free)
    (hused : next.heap.growth.used ≤ next.heap.growth.capacity)
    (hseparate : ∀ upper, run.global.kernel = some upper →
      Separate next.heap.growth upper.growth) : (run.withBootstrap next).Sound := by
  refine ⟨?_, fun upper hupper => ?_, nofun, h.late_eq_nil, ?_⟩
  · rintro _ ⟨⟩
    exact ⟨hnext, hused⟩
  · obtain ⟨free, hsound⟩ := h.kernel upper hupper
    exact ⟨free, hsound.withPages next.pages⟩
  · rintro _ upper ⟨⟩ hupper
    exact hseparate upper hupper

/-- The kernel heap may become another sound one. -/
theorem withKernel (h : run.Sound) {next : HeapRun PagedGrowth β}
    (hnext : ∃ free, next.Sound free)
    (hseparate : ∀ lower, run.global.bootstrap = some lower →
      Separate lower.growth next.heap.growth) : (run.withKernel next).Sound := by
  refine ⟨fun lower hlower => ?_, ?_, h.early_eq_nil, nofun, ?_⟩
  · obtain ⟨⟨free, hsound⟩, hused⟩ := h.bootstrap lower hlower
    exact ⟨⟨free, hsound.withPages next.pages⟩, hused⟩
  · rintro _ ⟨⟩
    exact hnext
  · rintro lower _ hlower ⟨⟩
    exact hseparate lower hlower

/-- Looking for the bootstrap heap makes a new one at most. -/
theorem claimed (h : run.Sound) (hkernel : run.global.kernel = none) : run.claimed.Sound := by
  unfold GlobalRun.claimed GlobalHeap.claimBootstrap
  cases hbootstrap : run.global.bootstrap with
  | some lower =>
    show GlobalRun.Sound { run with global := ⟨some lower, run.global.kernel⟩ }
    rw [← hbootstrap]
    exact h
  | none =>
    have hearly := h.early_eq_nil hbootstrap
    simp only [BootstrapRegion.take]
    split_ifs
    · exact ⟨nofun, h.kernel, fun _ => hearly, h.late_eq_nil, nofun⟩
    · have hnew := HeapRun.sound_start .empty run.pages
        (BumpBreak.sound_ofRegion run.region.base Layout.bootstrapHeapBytes)
        (BumpBreak.given_ofRegion run.region.base Layout.bootstrapHeapBytes)
      refine ⟨?_, h.kernel, nofun, h.late_eq_nil, fun _ upper _ hupper => ?_⟩
      · rintro _ ⟨⟩
        refine ⟨⟨[], ?_⟩, Nat.zero_le _⟩
        show HeapRun.Sound ⟨_, run.pages, run.early⟩ []
        rw [hearly]
        exact hnew
      · rw [hkernel] at hupper
        cases hupper

/-- The bootstrap heap owns the early blocks, and the kernel heap none of them. -/
theorem early_owned (h : run.Sound) {grant : Grant} (hgrant : grant ∈ run.early) :
    (∃ lower, run.global.bootstrap = some lower ∧ lower.owns grant.pointer = true) ∧
      ∀ upper, run.global.kernel = some upper → upper.owns grant.pointer = false := by
  cases hlower : run.global.bootstrap with
  | none =>
    rw [h.early_eq_nil hlower] at hgrant
    exact nomatch hgrant
  | some lower =>
    obtain ⟨⟨free, hsound⟩, hused⟩ := h.bootstrap lower hlower
    have howns : lower.owns grant.pointer = true := hsound.owns hgrant
    refine ⟨⟨lower, rfl, howns⟩, fun upper hupper => ?_⟩
    obtain ⟨free', hsound'⟩ := h.kernel upper hupper
    exact (h.separate lower upper hlower hupper).not_owns hsound.tiled hused hsound'.tiled howns

/-- The kernel heap owns the late blocks, and the bootstrap heap none of them. -/
theorem late_owned (h : run.Sound) {grant : Grant} (hgrant : grant ∈ run.late) :
    (∃ upper, run.global.kernel = some upper ∧ upper.owns grant.pointer = true) ∧
      ∀ lower, run.global.bootstrap = some lower → lower.owns grant.pointer = false := by
  cases hupper : run.global.kernel with
  | none =>
    rw [h.late_eq_nil hupper] at hgrant
    exact nomatch hgrant
  | some upper =>
    obtain ⟨free, hsound⟩ := h.kernel upper hupper
    have howns : upper.owns grant.pointer = true := hsound.owns hgrant
    refine ⟨⟨upper, rfl, howns⟩, fun lower hlower => ?_⟩
    obtain ⟨⟨free', hsound'⟩, hused⟩ := h.bootstrap lower hlower
    by_contra hboth
    have hother := (h.separate lower upper hlower hupper).not_owns hsound'.tiled hused hsound.tiled
      (Bool.not_eq_false _ ▸ hboth)
    rw [hother] at howns
    cases howns

/-- An early block is no late one. -/
theorem pointer_ne (h : run.Sound) {grant other : Grant} (hgrant : grant ∈ run.early)
    (hother : other ∈ run.late) : grant.pointer ≠ other.pointer := by
  intro heq
  obtain ⟨-, hnot⟩ := h.early_owned hgrant
  obtain ⟨⟨upper, hupper, howns⟩, -⟩ := h.late_owned hother
  rw [← heq, hnot upper hupper] at howns
  cases howns

/-- A call that is a legal one of the bootstrap heap goes through and keeps both heaps sound. -/
theorem by_bootstrap (h : run.Sound) (hlower : run.global.bootstrap = some lower)
    {inner : HeapCall} (legal : (run.ofBootstrap lower).Legal inner) {after : Traced (GlobalRun β)}
    (hafter : after.outcome =
      ((run.ofBootstrap lower).step inner).outcome.map run.withBootstrap) :
    ∃ next, after.outcome = .ok next ∧ next.Sound := by
  obtain ⟨⟨free, hsound⟩, hused⟩ := h.bootstrap lower hlower
  have kept := @BumpBreak.kept_within β lower.growth
  obtain ⟨last, hlast, follows⟩ :=
    hsound.step_ok (BumpBreak.faultless _) kept ⟨rfl, rfl, hused⟩ legal
  obtain ⟨hbase, hcapacity, hused'⟩ := hsound.step_kept kept ⟨rfl, rfl, hused⟩ legal hlast
  refine ⟨run.withBootstrap last, by rw [hafter, hlast, Outcome.map_ok],
    h.withBootstrap follows.sound hused' fun upper hupper addr hboth => ?_⟩
  -- The region is the same as before the call.
  refine h.separate lower upper hlower hupper addr ⟨?_, hboth.2⟩
  have hcovers := hboth.1
  unfold BumpBreak.Covers at hcovers ⊢
  rwa [hbase, hcapacity] at hcovers

/-- A call that is a legal one of the kernel heap, and goes through there, keeps both heaps sound.
-/
theorem by_kernel [PageBacking β] (h : run.Sound) (hupper : run.global.kernel = some upper)
    {inner : HeapCall} (legal : (run.ofKernel upper).Legal inner) {last : HeapRun PagedGrowth β}
    (hlast : ((run.ofKernel upper).step inner).outcome = .ok last) {after : Traced (GlobalRun β)}
    (hafter : after.outcome = ((run.ofKernel upper).step inner).outcome.map run.withKernel) :
    ∃ next, after.outcome = .ok next ∧ next.Sound := by
  obtain ⟨free, hsound⟩ := h.kernel upper hupper
  have hin : upper.growth.InOrder := hsound.tiled.sound
  obtain ⟨hnext, ⟨-, hcontinues⟩, -⟩ := (HeapRun.Trace.call legal hlast (.done last)).kept
    (PagedGrowth.kept_continues upper.growth) hsound ⟨hin, .refl _⟩
  refine ⟨run.withKernel last, by rw [hafter, hlast, Outcome.map_ok],
    h.withKernel hnext fun lower hlower addr hboth => ?_⟩
  -- The window is the same as before the call.
  refine h.separate lower upper hlower hupper addr ⟨hboth.1, ?_⟩
  have hcovers := hboth.2
  unfold PagedGrowth.Covers at hcovers ⊢
  rwa [hcontinues.window_eq, hcontinues.maxBytes_eq] at hcovers

end Sound

/-! ## Calls -/

variable [PageBacking β] {layout : BlockLayout} {pointer count : Nat} {source : Nat → HeapUnit}

/-- The run after a call. A heap that is not installed goes back to its owner. -/
def step (run : GlobalRun β) : GlobalCall → Traced (GlobalRun β)
  | .installBootstrap heap =>
    match run.global.installBootstrap heap with
    | .error _ => return run
    | .ok global => return { run with global }
  | .installKernel heap => do
    match ← run.global.installKernel heap with
    | .error _ => return run
    | .ok global => return { run with global }
  | .allocate layout => run.noted layout <$> run.global.allocate layout run.region run.pages
  | .deallocate pointer => do
    let global ← run.global.deallocate pointer
    return { run with
      global
      early := run.early.eraseP (·.pointer = pointer)
      late := run.late.eraseP (·.pointer = pointer) }
  | .store pointer count source =>
    return { run with global := run.global.writeAt pointer count source }

/-- A heap that gets installed serves nobody else, and region and window have no byte in common.
Only live blocks are given back and written. -/
def Legal (run : GlobalRun β) : GlobalCall → Prop
  | .installBootstrap heap => run.global.bootstrap = none → BumpBreak.Idle heap ∧
      ∀ kernel, run.global.kernel = some kernel → Separate heap.growth kernel.growth
  | .installKernel heap => run.global.kernel = none → PagedGrowth.Idle β heap ∧
      ∀ bootstrap, run.global.bootstrap = some bootstrap → Separate bootstrap.growth heap.growth
  | .allocate _ => True
  | .deallocate pointer => ∃ grant ∈ run.early ++ run.late, grant.pointer = pointer
  | .store pointer count _ =>
    ∃ grant ∈ run.early ++ run.late, grant.pointer = pointer ∧ count ≤ grant.bytes

/-- What becomes of a run by legal calls that do not fault. -/
inductive Reached (first : GlobalRun β) : GlobalRun β → Prop where
  | start : Reached first first
  | call {run next : GlobalRun β} {call : GlobalCall} (h : Reached first run)
      (legal : run.Legal call) (hstep : (run.step call).outcome = .ok next) : Reached first next

/-- With a kernel heap, a request is a request of that heap. -/
theorem step_allocate_of_kernel (hkernel : run.global.kernel = some upper) :
    (run.step (.allocate layout)).outcome =
      ((run.ofKernel upper).step (.allocateLayout layout)).outcome.map run.withKernel := by
  simp only [step, HeapRun.step, Traced.outcome_map, ofKernel,
    GlobalHeap.allocate_of_kernel hkernel]
  cases (upper.allocateLayout layout run.pages).outcome with
  | error fault => rfl
  | ok result =>
    obtain ⟨answer, heap, pages⟩ := result
    cases answer <;> simp [noted, HeapRun.record, withKernel, hkernel, Except.toOption]

/-- Without a kernel heap, a request is a request of the bootstrap heap, which is made if need be.
-/
theorem step_allocate_of_bootstrap (hkernel : run.global.kernel = none)
    (hlower : run.claimed.global.bootstrap = some lower) :
    (run.step (.allocate layout)).outcome =
      ((run.claimed.ofBootstrap lower).step (.allocateLayout layout)).outcome.map
        run.claimed.withBootstrap := by
  unfold claimed at hlower ⊢
  cases hclaim : run.global.claimBootstrap run.region with
  | mk bootstrap region =>
  rw [hclaim] at hlower
  obtain rfl : bootstrap = some lower := hlower
  simp only [step, HeapRun.step, Traced.outcome_map, ofBootstrap,
    GlobalHeap.allocate_of_bootstrap hkernel hclaim]
  cases (lower.allocateLayout layout run.pages).outcome with
  | error fault => rfl
  | ok result =>
    obtain ⟨answer, heap, pages⟩ := result
    cases answer <;> simp [noted, HeapRun.record, withBootstrap, hkernel, Except.toOption]

/-- Without any heap, a request leaves everything as it is once the fixed region was looked for.
-/
theorem step_allocate_of_none (hkernel : run.global.kernel = none)
    (hnone : run.claimed.global.bootstrap = none) :
    (run.step (.allocate layout)).outcome = .ok run.claimed := by
  unfold claimed at hnone ⊢
  cases hclaim : run.global.claimBootstrap run.region with
  | mk bootstrap region =>
  rw [hclaim] at hnone
  obtain rfl : bootstrap = none := hnone
  have hbootstrap : run.global.bootstrap = none := by
    unfold GlobalHeap.claimBootstrap at hclaim
    split at hclaim
    · cases hclaim
    · assumption
  simp only [step, Traced.outcome_map, GlobalHeap.allocate_of_none hkernel hclaim, Outcome.map_ok,
    noted]
  rw [← hbootstrap]

/-- An address that the kernel heap owns is given back to it. -/
theorem step_deallocate_of_kernel (hkernel : run.global.kernel = some upper)
    (howns : upper.owns pointer = true) (hearly : ∀ grant ∈ run.early, grant.pointer ≠ pointer) :
    (run.step (.deallocate pointer)).outcome =
      ((run.ofKernel upper).step (.free pointer)).outcome.map run.withKernel := by
  have herase : run.early.eraseP (·.pointer = pointer) = run.early :=
    List.eraseP_of_forall_not fun grant hgrant => by simpa using hearly grant hgrant
  simp only [step, HeapRun.step, Traced.outcome_bind, ofKernel, herase,
    GlobalHeap.deallocate_of_kernel hkernel howns]
  cases (upper.free pointer).outcome <;> rfl

/-- An address that only the bootstrap heap owns is given back to it. -/
theorem step_deallocate_of_bootstrap (hbootstrap : run.global.bootstrap = some lower)
    (howns : lower.owns pointer = true)
    (hkernel : ∀ upper, run.global.kernel = some upper → upper.owns pointer = false)
    (hlate : ∀ grant ∈ run.late, grant.pointer ≠ pointer) :
    (run.step (.deallocate pointer)).outcome =
      ((run.ofBootstrap lower).step (.free pointer)).outcome.map run.withBootstrap := by
  have herase : run.late.eraseP (·.pointer = pointer) = run.late :=
    List.eraseP_of_forall_not fun grant hgrant => by simpa using hlate grant hgrant
  simp only [step, HeapRun.step, Traced.outcome_bind, ofBootstrap, herase,
    GlobalHeap.deallocate_of_bootstrap hbootstrap howns hkernel]
  cases (lower.free pointer).outcome <;> rfl

/-- A write to an address that the kernel heap owns is a write to that heap. -/
theorem step_store_of_kernel (hkernel : run.global.kernel = some upper)
    (howns : upper.owns pointer = true) :
    (run.step (.store pointer count source)).outcome =
      ((run.ofKernel upper).step (.store pointer count source)).outcome.map run.withKernel := by
  obtain ⟨block, hblock⟩ := Option.isSome_iff_exists.mp howns
  simp [step, HeapRun.step, GlobalHeap.writeAt, GlobalHeap.locate?, hkernel, hblock, withKernel,
    ofKernel]

/-- A write to an address that only the bootstrap heap owns is a write to that heap. -/
theorem step_store_of_bootstrap (hbootstrap : run.global.bootstrap = some lower)
    (howns : lower.owns pointer = true)
    (hkernel : ∀ upper, run.global.kernel = some upper → upper.owns pointer = false) :
    (run.step (.store pointer count source)).outcome =
      ((run.ofBootstrap lower).step (.store pointer count source)).outcome.map
        run.withBootstrap := by
  obtain ⟨block, hblock⟩ := Option.isSome_iff_exists.mp howns
  have hother : run.global.kernel.bind (·.blockOf? pointer) = none := by
    rw [Option.bind_eq_none_iff]
    intro upper hupper
    exact Option.isNone_iff_eq_none.mp (Option.isSome_eq_false_iff.mp (hkernel upper hupper))
  simp [step, HeapRun.step, GlobalHeap.writeAt, GlobalHeap.locate?, hother, hbootstrap, hblock,
    withBootstrap, ofBootstrap]

/-- A legal call goes through and keeps both heaps sound, unless it is a request and the strategy of
the kernel heap faults when it is asked for units. -/
theorem Sound.step (h : run.Sound) {call : GlobalCall} (legal : run.Legal call) :
    (∃ layout upper units fault, call = .allocate layout ∧ run.global.kernel = some upper ∧
        (run.step call).outcome = .error fault ∧
        (requestUnits units upper.growth run.pages).outcome = .error fault) ∨
      ∃ next, (run.step call).outcome = .ok next ∧ next.Sound := by
  cases call with
  | installBootstrap heap =>
    right
    cases hbootstrap : run.global.bootstrap with
    | some lower =>
      exact ⟨run, by simp [GlobalRun.step, GlobalHeap.installBootstrap, hbootstrap], h⟩
    | none =>
      obtain ⟨hidle, hseparate⟩ := legal hbootstrap
      have hearly := h.early_eq_nil hbootstrap
      obtain ⟨hsound, hused⟩ := hidle.sound run.pages
      refine ⟨run.withBootstrap ⟨heap, run.pages, []⟩, ?_, h.withBootstrap hsound hused hseparate⟩
      simp [GlobalRun.step, GlobalHeap.installBootstrap, hbootstrap, GlobalRun.withBootstrap,
        hearly]
  | installKernel heap =>
    right
    cases hkernel : run.global.kernel with
    | some upper => exact ⟨run, by simp [GlobalRun.step, GlobalHeap.installKernel, hkernel], h⟩
    | none =>
      obtain ⟨hidle, hseparate⟩ := legal hkernel
      have hlate := h.late_eq_nil hkernel
      refine ⟨run.withKernel ⟨heap, run.pages, []⟩, ?_,
        h.withKernel (hidle.sound run.pages) hseparate⟩
      simp [GlobalRun.step, GlobalHeap.installKernel, hkernel, GlobalRun.withKernel, hlate]
  | allocate layout =>
    cases hkernel : run.global.kernel with
    | some upper =>
      obtain ⟨free, hsound⟩ := h.kernel upper hkernel
      have hlegal : (run.ofKernel upper).Legal (.allocateLayout layout) := trivial
      rcases hsound.step hlegal with ⟨units, fault, hfault, hcause⟩ | ⟨next, hnext, -⟩
      · left
        refine ⟨layout, upper, units, fault, rfl, rfl, ?_, hcause⟩
        rw [step_allocate_of_kernel hkernel, hfault, Outcome.map_error]
      · right
        exact h.by_kernel hkernel hlegal hnext (step_allocate_of_kernel hkernel)
    | none =>
      right
      -- The bootstrap heap may have to be made first, and then it is the one that is asked.
      cases hlower : run.claimed.global.bootstrap with
      | none => exact ⟨_, step_allocate_of_none hkernel hlower, h.claimed hkernel⟩
      | some lower =>
        have hlegal : (run.claimed.ofBootstrap lower).Legal (.allocateLayout layout) := trivial
        exact (h.claimed hkernel).by_bootstrap hlower hlegal
          (step_allocate_of_bootstrap hkernel hlower)
  | deallocate pointer =>
    right
    obtain ⟨grant, hgrant, rfl⟩ := legal
    rcases List.mem_append.mp hgrant with hearly | hlate
    · obtain ⟨⟨lower, hlower, howns⟩, hnot⟩ := h.early_owned hearly
      have hlegal : (run.ofBootstrap lower).Legal (.free grant.pointer) := ⟨grant, hearly, rfl⟩
      exact h.by_bootstrap hlower hlegal (step_deallocate_of_bootstrap hlower howns hnot
        fun other hother => (h.pointer_ne hearly hother).symm)
    · obtain ⟨⟨upper, hupper, howns⟩, -⟩ := h.late_owned hlate
      obtain ⟨free, hsound⟩ := h.kernel upper hupper
      have hlegal : (run.ofKernel upper).Legal (.free grant.pointer) := ⟨grant, hlate, rfl⟩
      obtain ⟨next, hnext, -⟩ := hsound.step_free hlegal
      exact h.by_kernel hupper hlegal hnext (step_deallocate_of_kernel hupper howns
        fun other hother => h.pointer_ne hother hlate)
  | store pointer count source =>
    right
    obtain ⟨grant, hgrant, rfl, hcount⟩ := legal
    rcases List.mem_append.mp hgrant with hearly | hlate
    · obtain ⟨⟨lower, hlower, howns⟩, hnot⟩ := h.early_owned hearly
      have hlegal : (run.ofBootstrap lower).Legal (.store grant.pointer count source) :=
        ⟨grant, hearly, rfl, hcount⟩
      exact h.by_bootstrap hlower hlegal (step_store_of_bootstrap hlower howns hnot)
    · obtain ⟨⟨upper, hupper, howns⟩, -⟩ := h.late_owned hlate
      obtain ⟨free, hsound⟩ := h.kernel upper hupper
      have hlegal : (run.ofKernel upper).Legal (.store grant.pointer count source) :=
        ⟨grant, hlate, rfl, hcount⟩
      obtain ⟨next, hnext, -⟩ := hsound.step_store hlegal
      exact h.by_kernel hupper hlegal hnext (step_store_of_kernel hupper howns)

/-- Whatever the calls, both heaps stay sound. -/
theorem Reached.sound {first : GlobalRun β} (hreached : Reached first run) (h : first.Sound) :
    run.Sound := by
  induction hreached with
  | start => exact h
  | call _ legal hstep ih =>
    rcases ih.step legal with ⟨layout, upper, units, fault, -, -, hfault, -⟩ | ⟨next, hnext, hsound⟩
    · rw [hfault] at hstep
      cases hstep
    · rw [hnext] at hstep
      cases hstep
      exact hsound

/-! ## Routing -/

/-- What the users of the two heaps may rely on. -/
structure Routed (run : GlobalRun β) : Prop where
  /-- With a kernel heap, a request is answered as the kernel heap answers it, also when it refuses,
  and nothing else changes. -/
  servedByKernel : ∀ upper, run.global.kernel = some upper → ∀ layout,
    (run.global.allocate layout run.region run.pages).outcome =
      (upper.allocateLayout layout run.pages).outcome.map fun (answer, heap, pages) =>
        (answer.toOption, { run.global with kernel := some heap }, run.region, pages)
  /-- Without one, a request is answered as the bootstrap heap answers it, which may be made for it,
  or refused if there is none to be had. There is no kernel heap then, either. -/
  servedByBootstrap : run.global.kernel = none → ∀ layout,
    ∃ answer global region, (run.global.allocate layout run.region run.pages).outcome =
        .ok (answer, global, region, run.pages) ∧ global.kernel = none ∧
      ((run.claimed.global.bootstrap = none ∧ answer = none ∧ global = run.global) ∨
        ∃ lower served heap, run.claimed.global.bootstrap = some lower ∧
          (lower.allocateLayout layout run.pages).outcome = .ok (served, heap, run.pages) ∧
          answer = served.toOption ∧ global.bootstrap = some heap)
  /-- The early blocks are owned by the bootstrap heap alone. -/
  earlyOwned : ∀ grant ∈ run.early,
    (∃ lower, run.global.bootstrap = some lower ∧ lower.owns grant.pointer = true) ∧
      ∀ upper, run.global.kernel = some upper → upper.owns grant.pointer = false
  /-- The late blocks are owned by the kernel heap alone. -/
  lateOwned : ∀ grant ∈ run.late,
    (∃ upper, run.global.kernel = some upper ∧ upper.owns grant.pointer = true) ∧
      ∀ lower, run.global.bootstrap = some lower → lower.owns grant.pointer = false
  /-- An early block is freed in the bootstrap heap, and the kernel heap stays as it is. -/
  earlyFreed : ∀ grant ∈ run.early, ∃ lower heap, run.global.bootstrap = some lower ∧
    (lower.free grant.pointer).outcome = .ok heap ∧
      (run.global.deallocate grant.pointer).outcome =
        .ok { run.global with bootstrap := some heap }
  /-- A late block is freed in the kernel heap, and the bootstrap heap stays as it is. -/
  lateFreed : ∀ grant ∈ run.late, ∃ upper heap, run.global.kernel = some upper ∧
    (upper.free grant.pointer).outcome = .ok heap ∧
      (run.global.deallocate grant.pointer).outcome =
        .ok { run.global with kernel := some heap }
  /-- A second bootstrap heap goes back to its owner, and nothing changes. -/
  secondBootstrap : run.global.bootstrap ≠ none → ∀ heap,
    run.global.installBootstrap heap = .error heap ∧
      (run.step (.installBootstrap heap)).outcome = .ok run
  /-- A second kernel heap goes back to its owner, and nothing changes. -/
  secondKernel : run.global.kernel ≠ none → ∀ heap,
    (run.global.installKernel heap).outcome = .ok (.error heap) ∧
      (run.step (.installKernel heap)).outcome = .ok run
  /-- Without early blocks the arena of the bootstrap heap is one free block. -/
  bootstrapWhole : run.early = [] → ∀ lower, run.global.bootstrap = some lower →
    0 < lower.arenaUnits → lower.freeBlocks = .ok 1 ∧ lower.freeUnits = lower.arenaUnits
  /-- Without late blocks the arena of the kernel heap is one free block. -/
  kernelWhole : run.late = [] → ∀ upper, run.global.kernel = some upper →
    0 < upper.arenaUnits → upper.freeBlocks = .ok 1 ∧ upper.freeUnits = upper.arenaUnits
  /-- A legal call faults only as the strategy of the kernel heap does when it is asked for units,
  and only if it is a request. -/
  faults : ∀ call, run.Legal call → (∃ next, (run.step call).outcome = .ok next) ∨
    ∃ layout upper units fault, call = .allocate layout ∧ run.global.kernel = some upper ∧
      (run.step call).outcome = .error fault ∧
      (requestUnits units upper.growth run.pages).outcome = .error fault

/-- Without a kernel heap, the bootstrap heap answers without a fault and without the pages. -/
theorem Sound.served_by_bootstrap (h : run.Sound) (hkernel : run.global.kernel = none)
    (layout : BlockLayout) :
    ∃ answer global region, (run.global.allocate layout run.region run.pages).outcome =
        .ok (answer, global, region, run.pages) ∧ global.kernel = none ∧
      ((run.claimed.global.bootstrap = none ∧ answer = none ∧ global = run.global) ∨
        ∃ lower served heap, run.claimed.global.bootstrap = some lower ∧
          (lower.allocateLayout layout run.pages).outcome = .ok (served, heap, run.pages) ∧
          answer = served.toOption ∧ global.bootstrap = some heap) := by
  have hclaimed := h.claimed hkernel
  cases hclaim : run.global.claimBootstrap run.region with
  | mk bootstrap region =>
  have hbootstrap : run.claimed.global.bootstrap = bootstrap := by
    unfold GlobalRun.claimed
    rw [hclaim]
  cases bootstrap with
  | none =>
    exact ⟨none, run.global, region, GlobalHeap.allocate_of_none hkernel hclaim layout run.pages,
      hkernel, .inl ⟨hbootstrap, rfl, rfl⟩⟩
  | some lower =>
    obtain ⟨⟨free, hsound⟩, -⟩ := hclaimed.bootstrap lower hbootstrap
    rcases hsound.tiled.allocateLayout layout run.pages with
      ⟨fault, -, hfault⟩ | ⟨answer, heap, pages, houtcome, -⟩
    · obtain ⟨result, hresult⟩ := HeapRun.requestUnits_bump _ lower.growth run.pages
      exact nomatch hfault.symm.trans hresult
    · obtain rfl : pages = run.pages :=
        hsound.tiled.allocateLayout_kept (BumpBreak.kept_pages run.pages) rfl houtcome
      refine ⟨_, { run.global with bootstrap := some heap }, region, ?_, hkernel,
        .inr ⟨lower, _, heap, hbootstrap, houtcome, rfl, rfl⟩⟩
      rw [GlobalHeap.allocate_of_bootstrap hkernel hclaim]
      exact congrArg (Except.map _) houtcome

/-- Two sound heaps with nothing in common are routed right: every call goes to the heap that it
is for. -/
theorem Sound.routed (h : run.Sound) : run.Routed where
  servedByKernel upper hupper layout :=
    GlobalHeap.allocate_of_kernel hupper layout run.region run.pages
  servedByBootstrap := h.served_by_bootstrap
  earlyOwned grant hgrant := h.early_owned hgrant
  lateOwned grant hgrant := h.late_owned hgrant
  earlyFreed grant hgrant := by
    obtain ⟨⟨lower, hlower, howns⟩, hnot⟩ := h.early_owned hgrant
    obtain ⟨⟨free, hsound⟩, -⟩ := h.bootstrap lower hlower
    obtain ⟨heap, hfree, -⟩ := hsound.free_live hgrant
    refine ⟨lower, heap, hlower, hfree, ?_⟩
    rw [GlobalHeap.deallocate_of_bootstrap hlower howns hnot]
    exact congrArg (Except.map _) hfree
  lateFreed grant hgrant := by
    obtain ⟨⟨upper, hupper, howns⟩, -⟩ := h.late_owned hgrant
    obtain ⟨free, hsound⟩ := h.kernel upper hupper
    obtain ⟨heap, hfree, -⟩ := hsound.free_live hgrant
    refine ⟨upper, heap, hupper, hfree, ?_⟩
    rw [GlobalHeap.deallocate_of_kernel hupper howns]
    exact congrArg (Except.map _) hfree
  secondBootstrap hsome heap := by
    obtain ⟨lower, hlower⟩ := Option.ne_none_iff_exists'.mp hsome
    constructor <;> simp [GlobalRun.step, GlobalHeap.installBootstrap, hlower]
  secondKernel hsome heap := by
    obtain ⟨upper, hupper⟩ := Option.ne_none_iff_exists'.mp hsome
    constructor <;> simp [GlobalRun.step, GlobalHeap.installKernel, hupper]
  bootstrapWhole hearly lower hlower hunits := by
    obtain ⟨⟨free, hsound⟩, -⟩ := h.bootstrap lower hlower
    exact hsound.merged.whole hearly hunits
  kernelWhole hlate upper hupper hunits := by
    obtain ⟨free, hsound⟩ := h.kernel upper hupper
    exact hsound.merged.whole hlate hunits
  faults call legal := by
    rcases h.step legal with hfault | ⟨next, hnext, -⟩
    · exact .inr hfault
    · exact .inl ⟨next, hnext⟩

/-- However the bootstrap heap and the kernel heap are installed and used, over a region and a
window that have no byte in common, and however the kernel heap gets its pages: requests go to the
kernel heap from the moment there is one and to the bootstrap heap before, every live block is
owned by the heap that served it and by no other, and goes back to it without a fault while the
other heap stays as it is. A second heap of either kind goes back to its owner. When the blocks of
a heap have come back, its arena is one free block. -/
theorem every_run_routed {region : BootstrapRegion} {pages : β}
    (hreached : Reached (start region pages) run) : run.Routed :=
  (hreached.sound (sound_start region pages)).routed

/-- A block is served from the fixed region, a kernel heap is installed over a window that starts
right behind it, and another block is served. Then the early block is freed. -/
theorem every_run_routed_adjacent :
    let ledger : PageLedger := ⟨#[], none, none⟩
    ∃ both last, Reached (start ⟨0x10000, false⟩ ledger) both ∧ Reached both last ∧
      both.early = [⟨0x107e0, 24⟩] ∧ both.late = [⟨0x20fe0, 24⟩] ∧ both.Routed ∧
      last.early = [] ∧ last.late = [⟨0x20fe0, 24⟩] ∧ last.Routed := by
  intro ledger
  have hrun : (do
      let one ← (start ⟨0x10000, false⟩ ledger).step (.allocate ⟨24, 8⟩)
      let two ← one.step (.installKernel (.ofGrowth (.ofWindow 0x20000 (.ofNat 0x20000) 0x4000)))
      let three ← two.step (.allocate ⟨24, 8⟩)
      let four ← three.step (.deallocate 0x107e0)
      return (one.global.bootstrap.map (·.growth), three.early, three.late, four.early, four.late) :
        Traced _).outcome = .ok (some ⟨0x10000, 0x10000, 0x800⟩, [⟨0x107e0, 24⟩],
          [⟨0x20fe0, 24⟩], [], [⟨0x20fe0, 24⟩]) := by
    decide +kernel
  simp only [Traced.outcome_bind, Outcome.bind_eq_ok, Traced.outcome_pure, Except.ok.injEq,
    Prod.mk.injEq] at hrun
  obtain ⟨one, hone, two, htwo, three, hthree, four, hfour, hgrowth, hearly, hlate, hearly',
    hlate'⟩ := hrun
  have hinstall : one.Legal
      (.installKernel (.ofGrowth (.ofWindow 0x20000 (.ofNat 0x20000) 0x4000))) := by
    refine fun _ => ⟨⟨.empty, _, ledger, ledger, [], .ofWindow _ _ _ ledger (by decide),
      .done _⟩, fun bootstrap hbootstrap => ?_⟩
    rw [hbootstrap, Option.map_some, Option.some.injEq] at hgrowth
    rw [hgrowth]
    rintro addr ⟨⟨-, hbelow⟩, habove, -⟩
    exact absurd hbelow (Nat.not_lt_of_le habove)
  have hfree : three.Legal (.deallocate 0x107e0) :=
    ⟨⟨0x107e0, 24⟩, by rw [hearly]; exact List.mem_cons_self, rfl⟩
  have hboth : Reached (start ⟨0x10000, false⟩ ledger) three :=
    ((Reached.start.call (show Legal _ (.allocate _) from trivial) hone).call hinstall htwo).call
      (show Legal _ (.allocate _) from trivial) hthree
  exact ⟨three, four, hboth, .call .start hfree hfour, hearly, hlate, every_run_routed hboth,
    hearly', hlate', every_run_routed (hboth.call hfree hfour)⟩

end GlobalRun

end BootMemory
