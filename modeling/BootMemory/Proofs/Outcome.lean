import BootMemory.Traced
import BootMemory.Word

/-!
# Outcomes of steps

A step has a value or a fault. A sequence of steps has a value exactly if every step has one,
and the lemmas here take such a sequence apart, one step at a time.
-/

set_option autoImplicit false

namespace BootMemory

namespace Outcome

variable {ε α β : Type}

/-- A value is handed on to what follows. -/
@[simp] theorem ok_bind (value : α) (rest : α → Except ε β) :
    (Except.ok value >>= rest) = rest value := rfl

/-- A fault ends the computation. -/
@[simp] theorem error_bind (fault : ε) (rest : α → Except ε β) :
    (Except.error fault >>= rest) = .error fault := rfl

/-- A plain value is a computation that succeeds. -/
@[simp] theorem pure_eq_ok (value : α) : (pure value : Except ε α) = .ok value := rfl

/-- A sequence of two steps has a value if the first has one and the second, given it, has
that value. -/
theorem bind_eq_ok {first : Except ε α} {rest : α → Except ε β} {value : β} :
    (first >>= rest) = .ok value ↔ ∃ middle, first = .ok middle ∧ rest middle = .ok value := by
  cases first with
  | error fault =>
    constructor
    · intro h
      cases h
    · rintro ⟨middle, h, -⟩
      cases h
  | ok middle =>
    constructor
    · intro h
      exact ⟨middle, rfl, h⟩
    · rintro ⟨other, h, hrest⟩
      cases h
      exact hrest

/-- A function is applied to the value of a computation. -/
@[simp] theorem map_ok (f : α → β) (value : α) :
    (Except.ok value : Except ε α).map f = .ok (f value) := rfl

/-- A function does not touch a fault. -/
@[simp] theorem map_error (f : α → β) (fault : ε) :
    (Except.error fault : Except ε α).map f = .error fault := rfl

/-- A step whose value is changed has the changed value of a value that it had. -/
theorem map_eq_ok {f : α → β} {outcome : Except ε α} {value : β} :
    outcome.map f = .ok value ↔ ∃ before, outcome = .ok before ∧ f before = value := by
  cases outcome <;> simp

/-- A step whose value is changed has the fault that it had. -/
theorem map_eq_error {f : α → β} {outcome : Except ε α} {fault : ε} :
    outcome.map f = .error fault ↔ outcome = .error fault := by
  cases outcome <;> simp

/-- A fold ends with a fault if one of its steps does, and none before that one. -/
theorem foldlM_eq_error_iff {step : β → α → Except ε β} {xs : List α} {state : β} {fault : ε} :
    xs.foldlM step state = .error fault ↔ ∃ before x after middle, xs = before ++ x :: after ∧
      before.foldlM step state = .ok middle ∧ step middle x = .error fault := by
  constructor
  · intro h
    induction xs generalizing state with
    | nil => cases h
    | cons x rest ih =>
      rw [List.foldlM_cons] at h
      cases hstep : step state x with
      | error other =>
        rw [hstep, error_bind] at h
        cases h
        exact ⟨[], x, rest, state, rfl, rfl, hstep⟩
      | ok next =>
        rw [hstep, ok_bind] at h
        obtain ⟨before, y, after, middle, rfl, hbefore, hy⟩ := ih h
        refine ⟨x :: before, y, after, middle, rfl, ?_, hy⟩
        rw [List.foldlM_cons, hstep, ok_bind, hbefore]
  · rintro ⟨before, x, after, middle, rfl, hbefore, hx⟩
    rw [List.foldlM_append, hbefore, ok_bind, List.foldlM_cons, hx, error_bind]

/-- Steps that follow those of another fold have values, and follow it to the end. -/
theorem foldlM_follows {γ : Type} {step : β → α → Except ε β} {other : γ → α → γ}
    {follows : β → γ → Prop} {xs : List α}
    (hstep : ∀ x ∈ xs, ∀ {state : β} {model : γ}, follows state model →
      ∃ next, step state x = .ok next ∧ follows next (other model x))
    {state : β} {model : γ} (h : follows state model) :
    ∃ last, xs.foldlM step state = .ok last ∧ follows last (xs.foldl other model) := by
  induction xs generalizing state model with
  | nil => exact ⟨state, rfl, h⟩
  | cons x rest ih =>
    obtain ⟨hx, hrest⟩ := List.forall_mem_cons.mp hstep
    obtain ⟨next, hnext, hfollows⟩ := hx h
    rw [List.foldlM_cons, hnext, ok_bind]
    exact ih hrest hfollows

/-- Numbers are added up if the additions have a value below a bound, and the sum is below it. -/
theorem foldlM_add_eq {add : Nat → Nat → Except ε Nat} {bound : Nat}
    (hadd : ∀ {a b : Nat}, a + b < bound → add a b = .ok (a + b)) {numbers : List Nat} {sum : Nat}
    (h : sum + numbers.sum < bound) : numbers.foldlM add sum = .ok (sum + numbers.sum) := by
  induction numbers generalizing sum with
  | nil => rfl
  | cons n rest ih =>
    rw [List.sum_cons] at h ⊢
    rw [List.foldlM_cons, hadd (by omega), ok_bind, ih (by omega), Nat.add_assoc]

end Outcome

/-- Changing the value of a computation changes the value of its outcome. -/
@[simp] theorem Traced.outcome_map {α β : Type} (f : α → β) (t : Traced α) :
    (f <$> t).outcome = t.outcome.map f := by
  rw [map_eq_pure_bind, outcome_bind]
  cases t.outcome <;> rfl

namespace Traced

variable {α β : Type}

/-- A step that has its value at once can be left out. -/
theorem liftM_ok_bind (value : α) (rest : α → Traced β) :
    ((liftM (.ok value : Except Fault α) : Traced α) >>= rest) = rest value :=
  Traced.pure_bind value rest

/-- What follows a step only matters for the value that the step has. -/
theorem bind_congr {first : Traced α} {rest other : α → Traced β}
    (h : ∀ value, first.outcome = .ok value → rest value = other value) :
    (first >>= rest) = (first >>= other) := by
  show Traced.bind first rest = Traced.bind first other
  unfold Traced.bind
  cases houtcome : first.outcome with
  | error fault => rfl
  | ok value => simp only [h value houtcome]

/-- Steps that are the same for the members of a list make the same fold. -/
theorem foldl_congr {step other : β → α → Traced β} {xs : List α}
    (h : ∀ x ∈ xs, ∀ state, step state x = other state x) {state : β} :
    foldl step state xs = foldl other state xs := by
  induction xs generalizing state with
  | nil => rfl
  | cons x rest ih =>
    obtain ⟨hx, hrest⟩ := List.forall_mem_cons.mp h
    rw [foldl_cons, foldl_cons, hx]
    exact bind_congr fun next _ => ih hrest

end Traced

/-- Goes on with the answer of a computation, unless the answer is a complaint. -/
def Traced.andThen {ε α β : Type} (first : Traced (Except ε α)) (rest : α → Traced β) :
    Traced (Option β) := do
  match ← first with
  | .error _ => return none
  | .ok answer => some <$> rest answer

/-- A computation that went on had an answer to go on with. -/
theorem Traced.of_andThen {ε α β : Type} {first : Traced (Except ε α)} {rest : α → Traced β}
    {value : β} (h : (first.andThen rest).outcome = .ok (some value)) :
    ∃ answer, first.outcome = .ok (.ok answer) ∧ (rest answer).outcome = .ok value := by
  rw [andThen, outcome_bind] at h
  obtain ⟨answer, hanswer, h⟩ := Outcome.bind_eq_ok.mp h
  cases answer with
  | error complaint => cases h
  | ok answer =>
    refine ⟨answer, hanswer, ?_⟩
    simp only [outcome_map] at h
    cases hrest : (rest answer).outcome with
    | error fault =>
      rw [hrest] at h
      cases h
    | ok last =>
      rw [hrest] at h
      cases h
      rfl

namespace Word

/-- A sum that fits a word is computed. -/
theorem add_eq_ok {a b : Nat} (h : a + b < 2 ^ 64) : add a b = .ok (a + b) :=
  add_eq_ok_iff.mpr ⟨h, rfl⟩

/-- A difference that is not below zero is computed. -/
theorem sub_eq_ok {a b : Nat} (h : b ≤ a) : sub a b = .ok (a - b) :=
  sub_eq_ok_iff.mpr ⟨h, rfl⟩

/-- A product that fits a word is computed. -/
theorem mul_eq_ok {a b : Nat} (h : a * b < 2 ^ 64) : mul a b = .ok (a * b) :=
  mul_eq_ok_iff.mpr ⟨h, rfl⟩

end Word

end BootMemory
