/-!
# Halving

An array is partitioned by a test if the elements that pass it come first.
`partitionPoint` finds the first element that does not pass by halving the part of the array
in which it may lie, so it looks at few elements only. In an array that is not partitioned the
answer means nothing.

A test may also be a step that can fail. `partitionPointM` stops where the test does at an element
that it looks at, and gives the partition point if the test never fails (`partitionPointM_eq_pure`).
-/

set_option autoImplicit false

namespace BootMemory

variable {α : Type}

/-- The first position from `low` up to `high` whose element does not pass the test. Every
round leaves at least one position out. -/
def bisectM {m : Type → Type} [Monad m] (test : α → m Bool) (xs : Array α) :
    Nat → Nat → Nat → m Nat
  | 0, low, _ => pure low
  | rounds + 1, low, high =>
    if low < high then
      let middle := low + (high - low) / 2
      match xs[middle]? with
      | none => pure low
      | some x => do
        if ← test x then bisectM test xs rounds (middle + 1) high
        else bisectM test xs rounds low middle
    else
      pure low

/-- The first position whose element does not pass a test that cannot fail. -/
def bisect (test : α → Bool) (xs : Array α) (rounds low high : Nat) : Nat :=
  Id.run (bisectM (fun x => pure (test x)) xs rounds low high)

/-- The position of the first element that does not pass the test, or the size if all pass. -/
def partitionPointM {m : Type → Type} [Monad m] (test : α → m Bool) (xs : Array α) : m Nat :=
  bisectM test xs xs.size 0 xs.size

/-- The partition point by a test that cannot fail. -/
def partitionPoint (test : α → Bool) (xs : Array α) : Nat := bisect test xs xs.size 0 xs.size

/-- One round of halving. -/
theorem bisect_succ (test : α → Bool) (xs : Array α) (rounds low high : Nat) :
    bisect test xs (rounds + 1) low high =
      if low < high then
        match xs[low + (high - low) / 2]? with
        | none => low
        | some x =>
          if test x then bisect test xs rounds (low + (high - low) / 2 + 1) high
          else bisect test xs rounds low (low + (high - low) / 2)
      else low := by
  unfold bisect
  rw [bisectM]
  by_cases hlt : low < high
  · simp only [if_pos hlt]
    cases xs[low + (high - low) / 2]? with
    | none => rfl
    | some x => cases hpass : test x <;> simp [hpass]
  · simp only [if_neg hlt]
    rfl

/-- A test that does not fail at any element halves as a plain one does. -/
theorem bisectM_eq_pure {m : Type → Type} [Monad m] [LawfulMonad m] {test : α → m Bool}
    {plain : α → Bool} {xs : Array α} (h : ∀ x ∈ xs, test x = pure (plain x))
    (rounds low high : Nat) :
    bisectM test xs rounds low high = pure (bisect plain xs rounds low high) := by
  induction rounds generalizing low high with
  | zero => rfl
  | succ rounds ih =>
    rw [bisectM, bisect_succ]
    by_cases hlt : low < high
    · simp only [if_pos hlt]
      cases hget : xs[low + (high - low) / 2]? with
      | none => rfl
      | some x =>
        simp only [h x (Array.mem_of_getElem? hget), pure_bind, ih]
        cases plain x <;> rfl
    · simp only [if_neg hlt]

/-- If the test has a value on every element, the search has one: that of the search with a plain
test. -/
theorem partitionPointM_eq_pure {m : Type → Type} [Monad m] [LawfulMonad m] {test : α → m Bool}
    {plain : α → Bool} {xs : Array α} (h : ∀ x ∈ xs, test x = pure (plain x)) :
    partitionPointM test xs = pure (partitionPoint plain xs) :=
  bisectM_eq_pure h xs.size 0 xs.size

/-- Whether the elements that pass a test come first. -/
def Partitioned (test : α → Bool) (xs : Array α) : Prop :=
  ∀ i j (hj : j < xs.size) (hij : i < j), test xs[j] = true → test xs[i] = true

/-- Everything below `low` passes, and nothing from `high` on does. -/
structure Separates (test : α → Bool) (xs : Array α) (low high : Nat) : Prop where
  le : low ≤ high
  le_size : high ≤ xs.size
  below : ∀ i (hi : i < xs.size), i < low → test xs[i] = true
  above : ∀ i (hi : i < xs.size), high ≤ i → test xs[i] = false

/-- An element that passes shows that everything up to it passes. -/
theorem Separates.raise {test : α → Bool} {xs : Array α} {low high middle : Nat}
    (h : Separates test xs low high) (hp : Partitioned test xs) (hm : middle < xs.size)
    (hlt : middle < high) (hpass : test xs[middle] = true) :
    Separates test xs (middle + 1) high := by
  refine ⟨hlt, h.le_size, ?_, h.above⟩
  intro i hi hile
  rcases Nat.lt_or_eq_of_le (Nat.lt_succ_iff.mp hile) with hilt | rfl
  · exact hp i middle hm hilt hpass
  · exact hpass

/-- An element that does not pass shows that nothing from it on passes. -/
theorem Separates.lower {test : α → Bool} {xs : Array α} {low high middle : Nat}
    (h : Separates test xs low high) (hp : Partitioned test xs) (hm : middle < xs.size)
    (hle : low ≤ middle) (hfail : test xs[middle] = false) :
    Separates test xs low middle := by
  refine ⟨hle, Nat.le_of_lt hm, h.below, ?_⟩
  intro i hi hmi
  rcases Nat.lt_or_eq_of_le hmi with hlt | rfl
  · cases hpass : test xs[i] with
    | false => rfl
    | true =>
      rw [hp middle i hi hlt hpass] at hfail
      exact Bool.noConfusion hfail
  · exact hfail

/-- Halving leads to one position that separates. -/
theorem Separates.bisect {test : α → Bool} {xs : Array α} (hp : Partitioned test xs)
    (rounds low high : Nat) (h : Separates test xs low high) (hrounds : high - low ≤ rounds) :
    Separates test xs (bisect test xs rounds low high) (bisect test xs rounds low high) := by
  have hle := h.le
  induction rounds generalizing low high with
  | zero =>
    obtain rfl : low = high := by omega
    exact h
  | succ rounds ih =>
    rw [bisect_succ]
    by_cases hlt : low < high
    · have hsize := h.le_size
      have hm : low + (high - low) / 2 < xs.size := by omega
      simp only [hlt, ↓reduceIte, Array.getElem?_eq_getElem hm]
      cases hpass : test xs[low + (high - low) / 2] with
      | true => exact ih _ high (h.raise hp hm (by omega) hpass) (by omega) (by omega)
      | false => exact ih low _ (h.lower hp hm (by omega) hpass) (by omega) (by omega)
    · obtain rfl : low = high := by omega
      rw [if_neg hlt]
      exact h

/-- In a partitioned array exactly the elements below the partition point pass. -/
theorem partitionPoint_spec {test : α → Bool} {xs : Array α} (hp : Partitioned test xs) (i : Nat)
    (hi : i < xs.size) : test xs[i] = true ↔ i < partitionPoint test xs := by
  have hstart : Separates test xs 0 xs.size :=
    ⟨Nat.zero_le _, Nat.le_refl _, fun _ _ hlt => absurd hlt (Nat.not_lt_zero _),
      fun _ hi hle => absurd hi (Nat.not_lt_of_le hle)⟩
  have h := hstart.bisect hp xs.size 0 xs.size (Nat.le_refl _)
  constructor
  · intro hpass
    rcases Nat.lt_or_ge i (partitionPoint test xs) with hlt | hge
    · exact hlt
    · rw [h.above i hi hge] at hpass
      exact Bool.noConfusion hpass
  · exact h.below i hi

end BootMemory
