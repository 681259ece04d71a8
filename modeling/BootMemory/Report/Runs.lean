import BootMemory.Report.Basic

/-!
# Runs

Long lists of numbers are told about by their runs. `consecutive` joins neighbours that count
upwards and `repeated` joins neighbours that are equal; both keep the order.
-/

set_option autoImplicit false

namespace BootMemory.Runs

/-- Adds a number in front of runs. It joins the first run if that starts with `next`. -/
def push (next x : Nat) : List (Nat × Nat) → List (Nat × Nat)
  | (first, count) :: rest =>
    if first = next then (x, count + 1) :: rest else (x, 1) :: (first, count) :: rest
  | [] => [(x, 1)]

/-- The runs of neighbours that count upwards, each with its first number and its length. -/
def consecutive (numbers : List Nat) : List (Nat × Nat) :=
  numbers.foldr (fun x runs => push (x + 1) x runs) []

/-- The runs of equal neighbours, each with its number and its length. -/
def repeated (numbers : List Nat) : List (Nat × Nat) :=
  numbers.foldr (fun x runs => push x x runs) []

/-- Runs, each as its first number and its length. -/
def report (runs : List (Nat × Nat)) : Report :=
  .list (runs.map fun run => .list [.wide run.1, .tally run.2])

end BootMemory.Runs
