import BootMemory.Heap.PagedGrowth
import BootMemory.Proofs.Outcome
import Mathlib.Tactic.SplitIfs

/-!
# What a heap relies on when its arena grows

A heap gives its arena's units away by their indices, so the strategy has to give units
that follow each other and never to move them. `LawfulGrowth` says so with a counter of the
units given so far: an extension that succeeds moves the counter by what it answers, and one
that fails does not move it. `AmpleGrowth` adds that an extension that succeeds gives no less than
it was asked for. Both strategies keep these laws, whatever the pages come from and whether or not
they can be had.
-/

set_option autoImplicit false

namespace BootMemory

/-- How many units a strategy has given, and the states it can be in. -/
class GivenUnits (γ : Type) where
  /-- The number of units given so far. -/
  given : γ → Nat
  /-- Whether a state can come about. -/
  Sound : γ → Prop

namespace GrowthError

/-- The units that an extension added: as many as it answers, and none if it failed. -/
def added : Except GrowthError Nat → Nat
  | .ok units => units
  | .error _ => 0

end GrowthError

/-- What an extension may do to a strategy. -/
structure Extends {γ : Type} [ArenaRegion γ] [GivenUnits γ] (growth other : γ)
    (answer : Except GrowthError Nat) : Prop where
  sound : GivenUnits.Sound other
  base : ArenaRegion.base other = ArenaRegion.base growth
  given : GivenUnits.given other = GivenUnits.given growth + GrowthError.added answer

/-- A strategy that gives units in their order, and no more of them than fit a word's worth
of bytes. -/
class LawfulGrowth (γ β : Type) [ArenaRegion γ] [ArenaGrowth γ β] [GivenUnits γ] : Prop where
  given_le {growth : γ} (h : GivenUnits.Sound growth) : GivenUnits.given growth ≤ 2 ^ 60
  extend {units : Nat} {growth other : γ} {pages pages' : β} {answer : Except GrowthError Nat}
    (h : GivenUnits.Sound growth)
    (he : (ArenaGrowth.extend units growth pages).outcome = .ok (answer, other, pages')) :
    Extends growth other answer

/-- A lawful strategy that gives at least as many units as it is asked for, or fails. -/
class AmpleGrowth (γ β : Type) [ArenaRegion γ] [ArenaGrowth γ β] [GivenUnits γ] : Prop extends
    LawfulGrowth γ β where
  le_added {units added : Nat} {growth other : γ} {pages pages' : β}
    (he : (ArenaGrowth.extend units growth pages).outcome = .ok (.ok added, other, pages')) :
    units ≤ added

/-- A break that is moved ends behind the new units, within the limit and within a word. -/
theorem advance?_eq_some {brk units limit target : Nat}
    (h : advance? brk units limit = some target) :
    target = brk + units * unitBytes ∧ target ≤ limit ∧ target < 2 ^ 64 := by
  unfold advance? at h
  simp only at h
  split_ifs at h with fits
  cases h
  exact ⟨rfl, fits⟩

/-- Where a few units do not fit, more do not fit. -/
theorem advance?_eq_none_of_le {brk few units limit : Nat} (hle : few ≤ units)
    (h : advance? brk few limit = none) : advance? brk units limit = none := by
  cases hunits : advance? brk units limit with
  | none => rfl
  | some target =>
    obtain ⟨rfl, hfits⟩ := advance?_eq_some hunits
    have hmono : few * unitBytes ≤ units * unitBytes := Nat.mul_le_mul_right _ hle
    unfold advance? at h
    simp only at h
    rw [if_pos (by omega)] at h
    cases h

/-- Within a word, the break is not moved exactly if the new units would end past the limit. -/
theorem advance?_eq_none_iff {brk units limit : Nat} (hlimit : limit < 2 ^ 64) :
    advance? brk units limit = none ↔ limit < brk + units * unitBytes := by
  unfold advance?
  simp only
  split_ifs with fits
  · simp only [false_iff, Nat.not_lt]
    exact fits.1
  · simp only [true_iff]
    omega

namespace BumpBreak

instance : GivenUnits BumpBreak where
  given bump := bump.used / unitBytes
  Sound bump := unitBytes ∣ bump.used ∧ bump.used ≤ 2 ^ 64

/-- A region from which nothing was given is sound. -/
theorem sound_ofRegion (base bytes : Nat) : GivenUnits.Sound (ofRegion base bytes) :=
  ⟨⟨0, rfl⟩, Nat.zero_le _⟩

/-- Nothing was given from a new region. -/
theorem given_ofRegion (base bytes : Nat) : GivenUnits.given (ofRegion base bytes) = 0 :=
  Nat.zero_div _

/-- Moving the break does not fault. -/
theorem extend_outcome {β : Type} (units : Nat) (bump : BumpBreak) (pages : β) :
    (ArenaGrowth.extend units bump pages).outcome =
      .ok ((bump.extend units).1, (bump.extend units).2, pages) := rfl

/-- A region with too little room refuses, and stays as it is. -/
theorem extend_of_none {units : Nat} {bump : BumpBreak}
    (h : advance? bump.used units bump.capacity = none) :
    bump.extend units = (.error .exhausted, bump) := by
  rw [extend, h]

/-- A region with enough room gives exactly the units that it is asked for. -/
theorem extend_of_some {units used : Nat} {bump : BumpBreak}
    (h : advance? bump.used units bump.capacity = some used) :
    bump.extend units = (.ok units, { bump with used }) := by
  rw [extend, h]

instance {β : Type} : LawfulGrowth BumpBreak β where
  given_le := by
    rintro bump ⟨-, hle⟩
    show bump.used / 16 ≤ _
    omega
  extend := by
    rintro units bump other pages pages' answer ⟨hdvd, hle⟩ he
    rw [extend_outcome, Except.ok.injEq, Prod.mk.injEq, Prod.mk.injEq] at he
    obtain ⟨rfl, rfl, -⟩ := he
    unfold extend
    cases hadvance : advance? bump.used units bump.capacity with
    | none => exact ⟨⟨hdvd, hle⟩, rfl, rfl⟩
    | some used =>
      obtain ⟨rfl, -, hlt⟩ := advance?_eq_some hadvance
      refine ⟨⟨Nat.dvd_add hdvd ⟨units, Nat.mul_comm _ _⟩, Nat.le_of_lt hlt⟩, rfl, ?_⟩
      exact Nat.add_mul_div_right _ _ (by decide)

/-- A break moves by what is asked for. -/
instance {β : Type} : AmpleGrowth BumpBreak β where
  le_added := by
    intro units added bump other pages pages' he
    rw [extend_outcome, Except.ok.injEq, Prod.mk.injEq] at he
    have hadded := he.1
    unfold extend at hadded
    cases hadvance : advance? bump.used units bump.capacity with
    | none =>
      rw [hadvance] at hadded
      cases hadded
    | some used =>
      rw [hadvance] at hadded
      cases hadded
      exact Nat.le_refl units

end BumpBreak

namespace PagedGrowth

/-- The break and the backed bytes are whole pages, and none of them lies behind the next:
the break, the backed bytes, the window, the address space. -/
structure InOrder (growth : PagedGrowth) : Prop where
  brk : pageBytes ∣ growth.brk
  mapped : pageBytes ∣ growth.mapped
  maxBytes : pageBytes ∣ growth.maxBytes
  brk_le : growth.brk ≤ growth.mapped
  mapped_le : growth.mapped ≤ growth.maxBytes
  maxBytes_le : growth.maxBytes ≤ 2 ^ 64

instance : GivenUnits PagedGrowth where
  given growth := growth.brk / unitBytes
  Sound := InOrder

/-- The bounds of a new window are in order. -/
theorem inOrder_ofWindow (window : Nat) (start : VirtAddr) {maxBytes : Nat}
    (h : maxBytes < 2 ^ 64) : InOrder (ofWindow window start maxBytes) := by
  have hle : roundDown maxBytes pageBytes ≤ maxBytes := Nat.div_mul_le_self _ _
  refine ⟨⟨0, rfl⟩, ⟨0, rfl⟩, ⟨maxBytes / pageBytes, Nat.mul_comm _ _⟩, Nat.le_refl _,
    Nat.zero_le _, ?_⟩
  exact Nat.le_trans hle (Nat.le_of_lt h)

section

variable {β : Type} [PageBacking β] {growth other : PagedGrowth} {pages pages' : β}

/-- Backing pages either fails and moves nothing, or moves the backed bytes to the end of the
last page that is needed. -/
theorem backUntil_ok {bytes : Nat} {answer : Except GrowthError Unit}
    (h : (backUntil bytes growth pages).outcome = .ok (answer, other, pages')) :
    (∃ cause, answer = .error (.backing cause) ∧ other = growth) ∨
      answer = .ok () ∧ other = { growth with
        mapped := max growth.mapped ((bytes + (pageBytes - 1)) / pageBytes * pageBytes) } := by
  unfold backUntil at h
  simp only [Traced.outcome_bind, Outcome.bind_eq_ok] at h
  obtain ⟨progress, -, h⟩ := h
  cases progress with
  | inr refusal =>
    left
    simp only [Traced.outcome_bind, Traced.outcome_report, Outcome.ok_bind,
      Outcome.bind_eq_ok, Traced.outcome_pure, Except.ok.injEq, Prod.mk.injEq] at h
    obtain ⟨_, -, rfl, rfl, -⟩ := h
    exact ⟨_, rfl, rfl⟩
  | inl progress =>
    right
    simp only at h
    split_ifs at h with more
    · simp only [Traced.outcome_bind, Traced.outcome_report, Outcome.ok_bind,
        Traced.outcome_pure, Except.ok.injEq, Prod.mk.injEq] at h
      obtain ⟨rfl, rfl, -⟩ := h
      rw [Nat.max_eq_right (Nat.le_of_lt more)]
      exact ⟨rfl, rfl⟩
    · simp only [Traced.outcome_pure, Except.ok.injEq, Prod.mk.injEq] at h
      obtain ⟨rfl, rfl, -⟩ := h
      rw [Nat.max_eq_left (Nat.le_of_not_lt more)]
      exact ⟨rfl, rfl⟩

/-- Backing pages within the window keeps the order of the bounds. -/
theorem InOrder.backed (h : growth.InOrder) {bytes : Nat} (hbytes : bytes ≤ growth.maxBytes) :
    InOrder { growth with
      mapped := max growth.mapped ((bytes + (pageBytes - 1)) / pageBytes * pageBytes) } := by
  have hbrk := h.brk_le
  have hmapped := h.mapped_le
  have hstop : (bytes + (pageBytes - 1)) / pageBytes * pageBytes ≤ growth.maxBytes := by
    obtain ⟨windowPages, hmax⟩ := h.maxBytes
    rw [hmax] at hbytes ⊢
    rw [show pageBytes = 4096 from rfl] at *
    omega
  refine ⟨h.brk, ?_, h.maxBytes, ?_, ?_, h.maxBytes_le⟩
  · rcases Nat.le_total growth.mapped ((bytes + (pageBytes - 1)) / pageBytes * pageBytes) with
      hle | hle
    · rw [Nat.max_eq_right hle]
      exact ⟨_, Nat.mul_comm _ _⟩
    · rw [Nat.max_eq_left hle]
      exact h.mapped
  · exact Nat.le_trans hbrk (Nat.le_max_left _ _)
  · exact Nat.max_le.mpr ⟨hmapped, hstop⟩

/-- Backing pages beforehand keeps the bounds of a window in order, and does not move the break.
-/
theorem InOrder.prefill (h : growth.InOrder) {bytes : Nat} {answer : Except GrowthError Unit}
    (hp : (prefill bytes growth pages).outcome = .ok (answer, other, pages')) :
    other.InOrder ∧ other.brk = growth.brk ∧ other.window = growth.window := by
  unfold PagedGrowth.prefill at hp
  split_ifs at hp with excess
  · cases hp
    exact ⟨h, rfl, rfl⟩
  · rcases backUntil_ok hp with ⟨-, -, rfl⟩ | ⟨-, rfl⟩
    · exact ⟨h, rfl, rfl⟩
    · exact ⟨h.backed (Nat.le_of_not_lt excess), rfl, rfl⟩

/-- How an extension that is answered ends: the window is too small, or a page is not backed and
nothing moves, or everything that is backed is given. -/
inductive ExtendEnds (units : Nat) (growth : PagedGrowth) (pages : β) :
    Except GrowthError Nat → PagedGrowth → β → Prop
  | short (advance : advance? growth.brk units growth.maxBytes = none) :
      ExtendEnds units growth pages (.error .exhausted) growth pages
  | unbacked {target : Nat} {cause : GrowthError} {pages' : β}
      (advance : advance? growth.brk units growth.maxBytes = some target)
      (backed : (backUntil target growth pages).outcome = .ok (.error cause, growth, pages')) :
      ExtendEnds units growth pages (.error cause) growth pages'
  | given {target stop : Nat} {pages' : β}
      (advance : advance? growth.brk units growth.maxBytes = some target)
      (backed : (backUntil target growth pages).outcome =
        .ok (.ok (), { growth with mapped := stop }, pages'))
      (stop_eq : stop = max growth.mapped ((target + (pageBytes - 1)) / pageBytes * pageBytes)) :
      ExtendEnds units growth pages (.ok ((stop - growth.brk) / unitBytes))
        { growth with mapped := stop, brk := stop } pages'

/-- An extension, if it is answered, ends in one of these ways. -/
theorem extendEnds_of_outcome {units : Nat} {answer : Except GrowthError Nat}
    (he : (PagedGrowth.extend units growth pages).outcome = .ok (answer, other, pages')) :
    ExtendEnds units growth pages answer other pages' := by
  unfold PagedGrowth.extend at he
  cases hadvance : advance? growth.brk units growth.maxBytes with
  | none =>
    rw [hadvance] at he
    cases he
    exact .short hadvance
  | some target =>
    rw [hadvance] at he
    simp only [Traced.outcome_bind, Outcome.bind_eq_ok] at he
    obtain ⟨⟨backed, middle, between⟩, hbacked, he⟩ := he
    rcases backUntil_ok hbacked with ⟨cause, rfl, rfl⟩ | ⟨rfl, rfl⟩
    · cases he
      exact .unbacked hadvance hbacked
    · cases he
      exact .given hadvance hbacked rfl

/-- An extension either fails and moves nothing, or gives everything that is backed. -/
theorem InOrder.extend (h : growth.InOrder) {units : Nat} {answer : Except GrowthError Nat}
    (he : (PagedGrowth.extend units growth pages).outcome = .ok (answer, other, pages')) :
    Extends growth other answer := by
  cases extendEnds_of_outcome he with
  | short advance => exact ⟨h, rfl, rfl⟩
  | unbacked advance backed => exact ⟨h, rfl, rfl⟩
  | given advance backed stop_eq =>
    have hin := h.backed (advance?_eq_some advance).2.1
    rw [← stop_eq] at hin
    refine ⟨⟨hin.mapped, hin.mapped, hin.maxBytes, Nat.le_refl _, hin.mapped_le, hin.maxBytes_le⟩,
      rfl, ?_⟩
    obtain ⟨old, hold⟩ := h.brk
    obtain ⟨new, hnew⟩ := hin.mapped
    have hle := hin.brk_le
    simp only [GivenUnits.given, GrowthError.added] at hold hnew hle ⊢
    rw [hold, hnew] at *
    rw [show pageBytes = 4096 from rfl, show unitBytes = 16 from rfl] at *
    omega

instance : LawfulGrowth PagedGrowth β where
  given_le h := by
    have := h.brk_le
    have := h.mapped_le
    have := h.maxBytes_le
    show _ / 16 ≤ _
    omega
  extend h he := h.extend he

/-- The units that are given reach at least to the end of what was asked for, because pages are
backed to that end and no backed byte is held back. -/
theorem le_added {units added : Nat}
    (he : (PagedGrowth.extend units growth pages).outcome = .ok (.ok added, other, pages')) :
    units ≤ added := by
  cases extendEnds_of_outcome he with
  | @given target stop _ advance backed stop_eq =>
    obtain ⟨htarget, -, -⟩ := advance?_eq_some advance
    have hstop : target ≤ stop := by
      rw [stop_eq]
      apply Nat.le_trans _ (Nat.le_max_right _ _)
      rw [show pageBytes = 4096 from rfl]
      omega
    apply (Nat.le_div_iff_mul_le (by decide)).mpr
    apply Nat.le_sub_of_add_le'
    rw [← htarget]
    exact hstop

instance : AmpleGrowth PagedGrowth β where
  le_added he := le_added he

/-- The states of a window in which no unit was given: it is new, or pages of it were
backed beforehand. -/
inductive Unused : PagedGrowth → β → Prop where
  | ofWindow (window : Nat) (start : VirtAddr) (maxBytes : Nat) (pages : β)
      (h : maxBytes < 2 ^ 64) : Unused (.ofWindow window start maxBytes) pages
  | prefill {growth other : PagedGrowth} {pages pages' : β} {bytes : Nat}
      {answer : Except GrowthError Unit} (h : Unused growth pages)
      (hp : (PagedGrowth.prefill bytes growth pages).outcome = .ok (answer, other, pages')) :
      Unused other pages'

/-- The bounds of an unused window are in order, and its break is at the start. -/
theorem Unused.inOrder (h : Unused growth pages) : growth.InOrder ∧ growth.brk = 0 := by
  induction h with
  | ofWindow window start maxBytes pages h => exact ⟨inOrder_ofWindow window start h, rfl⟩
  | prefill h hp ih =>
    obtain ⟨hin, hbrk, -⟩ := ih.1.prefill hp
    exact ⟨hin, hbrk.trans ih.2⟩

/-- An unused window is sound. -/
theorem Unused.sound (h : Unused growth pages) : GivenUnits.Sound growth := h.inOrder.1

/-- No unit was given before the first request. -/
theorem Unused.given (h : Unused growth pages) : GivenUnits.given growth = 0 := by
  show growth.brk / unitBytes = 0
  rw [h.inOrder.2]
  exact Nat.zero_div _

end

end PagedGrowth

end BootMemory
