import BootMemory.Fault

/-!
# Reports

A report tells a tool about a value: a tree of lists and of named parts, whose leaves are
truth values, counts and texts. Addresses, sizes and other wide numbers are texts in
hexadecimal; counts of things are numbers.

A type whose values have one way to be told about is `Reportable`. An answer that was not
given is the empty report, and an answer that was refused is the report of its refusal.
-/

set_option autoImplicit false

namespace BootMemory

/-- A tree of named parts. -/
inductive Report where
  | empty
  | truth (value : Bool)
  | number (value : Int)
  | text (value : String)
  | list (items : List Report)
  | record (parts : List (String × Report))

/-- The report of a value. -/
class Reportable (α : Type) where
  report : α → Report

export Reportable (report)

namespace Report

/-- A number of things. -/
def tally (n : Nat) : Report := number n

/-- An address, a size or another wide number. -/
def wide (n : Nat) : Report := text (Text.hex n)

/-- A refusal under its name alone. -/
def named (name : String) : Report := record [("error", text name)]

/-- A refusal under its name and in words. -/
def refusal (name message : String) : Report :=
  record [("error", text name), ("message", text message)]

end Report

instance : Reportable Report := ⟨id⟩

/-- There is nothing to tell about something that was done, except that it was. -/
instance : Reportable Unit := ⟨fun _ => .text "ok"⟩

instance : Reportable Bool := ⟨.truth⟩

instance : Reportable String := ⟨.text⟩

instance : Reportable Nat := ⟨.wide⟩

instance : Reportable Int := ⟨.number⟩

instance {α : Type} [Reportable α] : Reportable (Option α) :=
  ⟨fun value => (value.map report).getD .empty⟩

instance {α : Type} [Reportable α] : Reportable (List α) :=
  ⟨fun items => .list (items.map report)⟩

instance {ε α : Type} [Reportable ε] [Reportable α] : Reportable (Except ε α) where
  report
    | .ok value => report value
    | .error cause => report cause

end BootMemory
