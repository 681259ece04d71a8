import BootMemory.Proofs.Heap.Supply
import BootMemory.Proofs.Journal

/-!
# Listening to a heap

Whatever a heap says about its blocks can be read. So if its strategy can be listened to while it
extends the arena (`LegibleGrowth`), every call of the heap can be (`LegibleGrowth.step`).
-/

set_option autoImplicit false

namespace BootMemory

variable {γ β : Type} [ArenaRegion γ] [ArenaGrowth γ β]

/-- Extensions can be listened to as long as something holds of the strategy and its pages. -/
def LegibleGrowth (holds : γ → β → Prop) : Prop :=
  ∀ ⦃growth : γ⦄ ⦃pages : β⦄ (units : Nat), holds growth pages →
    (ArenaGrowth.extend units growth pages).Legible

variable {holds : γ → β → Prop} {heap other : Heap γ} {growth : γ} {pages : β} {bytes units : Nat}

namespace Heap

omit [ArenaRegion γ] in
/-- What is reported while a block is taken can be written out. -/
theorem legible_take (units : Nat) (heap : Heap γ) : (heap.take units).Legible := by
  refine Traced.legible_bind (Traced.legible_liftM _) fun found => ?_
  cases found with
  | none => exact Traced.legible_pure _
  | some fit =>
    exact Traced.legible_bind (Traced.legible_liftM _) fun _ =>
      Traced.legible_bind (Traced.legible_report rfl) fun _ => Traced.legible_pure _

omit [ArenaRegion γ] in
/-- A heap that has no block to take stays as it is. -/
theorem eq_of_take_none (h : (heap.take units).outcome = .ok (none, other)) : other = heap := by
  unfold take at h
  simp only [Traced.outcome_bind, Outcome.bind_eq_ok] at h
  obtain ⟨found, -, h⟩ := h
  cases found with
  | none =>
    cases h
    rfl
  | some fit =>
    simp only [Traced.outcome_bind, Outcome.bind_eq_ok] at h
    obtain ⟨_, -, _, -, h⟩ := h
    cases h

omit [ArenaRegion γ] in
/-- What is reported while a block is released, a double free included, can be written out. -/
theorem legible_release (block : Nat) (heap : Heap γ) : (heap.release block).Legible := by
  refine Traced.legible_bind (Traced.legible_liftM _) fun found => ?_
  cases found with
  | none => exact Traced.legible_bind (Traced.legible_report rfl) fun _ => Traced.legible_pure _
  | some before => exact Traced.legible_liftM _

/-- What is reported while an address is freed can be written out. -/
theorem legible_free (pointer : Nat) (heap : Heap γ) : (heap.free pointer).Legible := by
  unfold free
  cases heap.blockOf? pointer with
  | none => exact Traced.legible_fault _
  | some block => exact legible_release block heap

end Heap

namespace LegibleGrowth

/-- Asking twice can be listened to, as extensions keep what makes them legible. -/
theorem requestUnits (legible : LegibleGrowth holds) (kept : KeptByGrowth holds) (units : Nat)
    (h : holds growth pages) : (Heap.requestUnits units growth pages).Legible := by
  refine Traced.legible_bind_of_ok (legible _ h) fun result hresult => ?_
  obtain ⟨answer, middle, between⟩ := result
  cases answer with
  | ok added => exact Traced.legible_pure _
  | error cause =>
    simp only
    split_ifs
    · exact Traced.legible_bind (Traced.legible_report rfl) fun _ => legible units (kept h hresult)
    · exact Traced.legible_pure _

/-- What is reported while an arena grows can be written out if that of its strategy can. -/
theorem grow (legible : LegibleGrowth holds) (kept : KeptByGrowth holds) (units : Nat)
    (h : holds heap.growth pages) : (heap.grow units pages).Legible := by
  refine Traced.legible_bind (legible.requestUnits kept units h) fun result => ?_
  obtain ⟨answer, middle, between⟩ := result
  cases answer with
  | error cause =>
    exact Traced.legible_bind (Traced.legible_report rfl) fun _ => Traced.legible_pure _
  | ok added =>
    simp only
    split_ifs
    · exact Traced.legible_pure _
    · refine Traced.legible_bind (Traced.legible_liftM _) fun _ => ?_
      refine Traced.legible_bind (Traced.legible_liftM _) fun grown => ?_
      refine Traced.legible_bind (Traced.legible_report rfl) fun _ => ?_
      exact Traced.legible_bind (Heap.legible_release _ grown) fun _ => Traced.legible_pure _

/-- What is reported while a block is looked for can be written out if that of the strategy can.
-/
theorem allocateBlock (legible : LegibleGrowth holds) (kept : KeptByGrowth holds) (bytes : Nat)
    (h : holds heap.growth pages) : (heap.allocateBlock bytes pages).Legible := by
  unfold Heap.allocateBlock
  split_ifs
  · exact Traced.legible_pure _
  refine Traced.legible_bind_of_ok (Heap.legible_take _ heap) fun result hresult => ?_
  obtain ⟨taken, middle⟩ := result
  cases taken with
  | some block => exact Traced.legible_pure _
  | none =>
    have hmiddle : middle = heap := Heap.eq_of_take_none hresult
    refine Traced.legible_bind (legible.grow kept _ (hmiddle ▸ h)) fun result => ?_
    obtain ⟨answer, grown, between⟩ := result
    cases answer with
    | error cause => exact Traced.legible_pure _
    | ok _ =>
      refine Traced.legible_bind (Heap.legible_take _ grown) fun result => ?_
      obtain ⟨taken, last⟩ := result
      cases taken <;> exact Traced.legible_pure _

/-- What is done with a block that was served does not matter, if it can be listened to itself. -/
theorem finish (legible : LegibleGrowth holds) (kept : KeptByGrowth holds) (bytes : Nat)
    (h : holds heap.growth pages)
    {finish : Nat → Heap γ → β → Traced (Except HeapError Nat × Heap γ × β)}
    (hfinish : ∀ block heap pages, (finish block heap pages).Legible) :
    (do
      match ← heap.allocateBlock bytes pages with
      | (.error cause, heap, pages) => return (Except.error cause, heap, pages)
      | (.ok block, heap, pages) => finish block heap pages).Legible := by
  refine Traced.legible_bind (legible.allocateBlock kept bytes h) fun result => ?_
  obtain ⟨answer, other, between⟩ := result
  cases answer with
  | error cause => exact Traced.legible_pure _
  | ok block => exact hfinish block other between

/-- What is reported for a request for bytes can be written out if that of the strategy can. -/
theorem allocate (legible : LegibleGrowth holds) (kept : KeptByGrowth holds) (bytes : Nat)
    (h : holds heap.growth pages) : (heap.allocate bytes pages).Legible :=
  legible.finish kept bytes h fun _ _ _ =>
    Traced.legible_bind (Traced.legible_liftM _) fun _ => Traced.legible_pure _

/-- What is reported for a request for cleared bytes can be written out if that of the strategy
can. -/
theorem allocateZeroed (legible : LegibleGrowth holds) (kept : KeptByGrowth holds) (bytes : Nat)
    (h : holds heap.growth pages) : (heap.allocateZeroed bytes pages).Legible :=
  legible.finish kept bytes h fun _ _ _ =>
    Traced.legible_bind (Traced.legible_liftM _) fun _ => Traced.legible_pure _

/-- What is reported for a request for a layout can be written out if that of the strategy can. -/
theorem allocateLayout (legible : LegibleGrowth holds) (kept : KeptByGrowth holds)
    (layout : BlockLayout) (h : holds heap.growth pages) :
    (heap.allocateLayout layout pages).Legible := by
  unfold Heap.allocateLayout
  split_ifs
  · exact Traced.legible_pure _
  · exact legible.allocate kept layout.size h

/-- Every call of a heap can be listened to. -/
theorem step (legible : LegibleGrowth holds) (kept : KeptByGrowth holds) {run : HeapRun γ β}
    (h : holds run.heap.growth run.pages) (call : HeapCall) : (run.step call).Legible := by
  cases call with
  | allocate bytes => exact Traced.legible_map _ (legible.allocate kept bytes h)
  | allocateLayout layout => exact Traced.legible_map _ (legible.allocateLayout kept layout h)
  | allocateZeroed bytes => exact Traced.legible_map _ (legible.allocateZeroed kept bytes h)
  | free pointer =>
    exact Traced.legible_bind (Heap.legible_free pointer run.heap) fun _ => Traced.legible_pure _
  | store pointer count source => exact Traced.legible_pure _

end LegibleGrowth

end BootMemory
