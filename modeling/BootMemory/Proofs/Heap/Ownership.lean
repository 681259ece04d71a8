import BootMemory.Heap.Global
import BootMemory.Proofs.Heap.Run

/-!
# Which heap owns an address

A block that comes back goes to the heap that owns its address. Nobody wrote down which one that is:
each heap compares the address with the bounds of its arena. The kernel heap is asked first, and an
address right at the end of its arena counts as its own, although it may be the first of the region
behind. That does no harm, because a payload is never at the start of an arena: the byte in front of
an address that a heap owns lies in its arena (`Heap.front_of_owns`), and no byte lies in two arenas
(`Separate.not_owns`).

Once it is clear who serves a request or owns an address, a call of the two heaps is a call of one
of them.
-/

set_option autoImplicit false

namespace BootMemory

open Heap BootMemory.Span

variable {γ β : Type}

/-! ## Who owns an address -/

/-- The byte in front of an address that a heap owns is one of its arena. -/
theorem Heap.front_of_owns [ArenaRegion γ] {heap : Heap γ} {pointer : Nat}
    (h : heap.owns pointer = true) :
    ArenaRegion.base heap.growth ≤ pointer - 1 ∧
      pointer - 1 < ArenaRegion.base heap.growth + heap.arenaUnits * unitBytes ∧ pointer ≠ 0 := by
  unfold Heap.owns blockOf? at h
  simp only at h
  split_ifs at h with hout hblock
  · cases h
  · unfold unitBytes at *
    omega
  · cases h

/-- The bytes of a region. -/
def BumpBreak.Covers (bump : BumpBreak) (addr : Nat) : Prop :=
  bump.base ≤ addr ∧ addr < bump.base + bump.capacity

/-- The bytes of a window. -/
def PagedGrowth.Covers (growth : PagedGrowth) (addr : Nat) : Prop :=
  growth.window ≤ addr ∧ addr < growth.window + growth.maxBytes

/-- A region and a window that have no byte in common. One may start where the other ends. -/
def Separate (bump : BumpBreak) (growth : PagedGrowth) : Prop :=
  ∀ addr, ¬ (bump.Covers addr ∧ growth.Covers addr)

section Owns

variable {lower : Heap BumpBreak} {upper : Heap PagedGrowth} {free live : List Span} {pointer : Nat}

/-- The byte in front of a payload of the bootstrap heap is a byte of its region. -/
theorem BumpBreak.covers_of_owns (h : lower.Tiled free live)
    (hused : lower.growth.used ≤ lower.growth.capacity) (howns : lower.owns pointer = true) :
    lower.growth.Covers (pointer - 1) := by
  obtain ⟨hle, hlt, -⟩ := front_of_owns howns
  have hgiven : lower.growth.used / unitBytes = lower.arenaUnits := h.given
  refine ⟨hle, Nat.lt_of_lt_of_le hlt (Nat.add_le_add_left (Nat.le_trans ?_ hused) _)⟩
  rw [← hgiven]
  exact Nat.div_mul_le_self _ _

/-- The byte in front of a payload of the kernel heap is a byte of its window. -/
theorem PagedGrowth.covers_of_owns (h : upper.Tiled free live) (howns : upper.owns pointer = true) :
    upper.growth.Covers (pointer - 1) := by
  obtain ⟨hle, hlt, -⟩ := front_of_owns howns
  have hgiven : upper.growth.brk / unitBytes = upper.arenaUnits := h.given
  have hin : upper.growth.InOrder := h.sound
  refine ⟨hle, Nat.lt_of_lt_of_le hlt (Nat.add_le_add_left (Nat.le_trans ?_
    (Nat.le_trans hin.brk_le hin.mapped_le)) _)⟩
  rw [← hgiven]
  exact Nat.div_mul_le_self _ _

/-- No address is owned by two heaps. -/
theorem Separate.not_owns (h : Separate lower.growth upper.growth) {free' live' : List Span}
    (hlower : lower.Tiled free live) (hused : lower.growth.used ≤ lower.growth.capacity)
    (hupper : upper.Tiled free' live') (howns : lower.owns pointer = true) :
    upper.owns pointer = false := by
  by_contra hboth
  exact h (pointer - 1) ⟨BumpBreak.covers_of_owns hlower hused howns,
    PagedGrowth.covers_of_owns hupper (Bool.not_eq_false _ ▸ hboth)⟩

end Owns

namespace HeapRun

variable [ArenaRegion γ] [GivenUnits γ] {run : HeapRun γ β} {free : List Span}

/-- A heap owns its live blocks. -/
theorem Sound.owns (h : run.Sound free) {grant : Grant} (hgrant : grant ∈ run.live) :
    run.heap.owns grant.pointer = true := by
  have hblock := h.tiled.blockOf?_eq (List.mem_map_of_mem hgrant)
  unfold Heap.owns
  rw [(h.grants grant hgrant).2]
  exact Option.isSome_iff_exists.mpr ⟨_, hblock⟩

/-- Whether a run is sound does not depend on the pages. -/
theorem Sound.withPages {β' : Type} (h : run.Sound free) (pages : β') :
    HeapRun.Sound (⟨run.heap, pages, run.live⟩ : HeapRun γ β') free := ⟨h.tiled, h.grants⟩

end HeapRun

/-! ## Calls of two heaps are calls of one -/

namespace GlobalHeap

variable [PageBacking β] {global : GlobalHeap} {lower : Heap BumpBreak} {upper : Heap PagedGrowth}
  {region region' : BootstrapRegion} {pointer : Nat}

/-- With a kernel heap, a request is answered as the kernel heap answers it, and the bootstrap heap
stays as it is. -/
theorem allocate_of_kernel (hkernel : global.kernel = some upper) (layout : BlockLayout)
    (region : BootstrapRegion) (pages : β) :
    (global.allocate layout region pages).outcome =
      (upper.allocateLayout layout pages).outcome.map fun (answer, heap, pages) =>
        (answer.toOption, { global with kernel := some heap }, region, pages) := by
  simp only [allocate, hkernel, Traced.outcome_bind, Traced.outcome_pure]
  cases (upper.allocateLayout layout pages).outcome <;> rfl

/-- Without a kernel heap, a request is answered as the bootstrap heap answers it. -/
theorem allocate_of_bootstrap (hkernel : global.kernel = none)
    (hclaim : global.claimBootstrap region = (some lower, region')) (layout : BlockLayout)
    (pages : β) :
    (global.allocate layout region pages).outcome =
      (lower.allocateLayout layout pages).outcome.map fun (answer, heap, pages) =>
        (answer.toOption, { global with bootstrap := some heap }, region', pages) := by
  simp only [allocate, hkernel, hclaim, Traced.outcome_bind, Traced.outcome_pure]
  cases (lower.allocateLayout layout pages).outcome <;> rfl

/-- Without any heap nothing is served. -/
theorem allocate_of_none (hkernel : global.kernel = none)
    (hclaim : global.claimBootstrap region = (none, region')) (layout : BlockLayout) (pages : β) :
    (global.allocate layout region pages).outcome = .ok (none, global, region', pages) := by
  simp only [allocate, hkernel, hclaim, Traced.outcome_pure]

/-- A block that the kernel heap owns is freed there, and the bootstrap heap stays as it is. -/
theorem deallocate_of_kernel (hkernel : global.kernel = some upper)
    (howns : upper.owns pointer = true) :
    (global.deallocate pointer).outcome =
      (upper.free pointer).outcome.map fun heap => { global with kernel := some heap } := by
  simp only [deallocate, (front_of_owns howns).2.2, hkernel, howns, Option.filter_some, ↓reduceIte,
    Traced.outcome_bind, Traced.outcome_pure]
  cases (upper.free pointer).outcome <;> rfl

/-- A block that only the bootstrap heap owns is freed there, and the kernel heap stays as it is. -/
theorem deallocate_of_bootstrap (hbootstrap : global.bootstrap = some lower)
    (howns : lower.owns pointer = true)
    (hkernel : ∀ upper, global.kernel = some upper → upper.owns pointer = false) :
    (global.deallocate pointer).outcome =
      (lower.free pointer).outcome.map fun heap => { global with bootstrap := some heap } := by
  have hother : global.kernel.filter (·.owns pointer) = none := by
    rw [Option.filter_eq_none_iff]
    intro upper hupper
    simp [hkernel upper hupper]
  simp only [deallocate, (front_of_owns howns).2.2, hother, hbootstrap, howns, Option.filter_some,
    ↓reduceIte, Traced.outcome_bind, Traced.outcome_pure]
  cases (lower.free pointer).outcome <;> rfl

end GlobalHeap

end BootMemory
