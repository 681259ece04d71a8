import BootMemory.Text.Blank

/-!
# Command-line arguments

The command line is a list of `key=value` words. The table keeps them in order, holds no
key twice and has room for sixteen. A word is cut at its first equals sign, so a value
may be empty and may contain further equals signs, but a key may not be empty.

Of several complaints about one word, the shape of the word is looked at first, then
whether its key is new, and only then whether there is room.
-/

set_option autoImplicit false

namespace BootMemory

/-- Why an argument was refused. -/
inductive ArgumentError where
  | duplicate
  | tableFull
  | malformed
  deriving DecidableEq, Repr

namespace ArgumentError

def name : ArgumentError → String
  | duplicate => "DuplicateArgument"
  | tableFull => "ArgumentTableFull"
  | malformed => "MalformedArgument"

def message : ArgumentError → String
  | duplicate => "duplicate kernel argument"
  | tableFull => "too many kernel arguments"
  | malformed => "malformed kernel argument, expected key=value"

end ArgumentError

/-- The arguments of a command line, in order. -/
structure Arguments where
  pairs : List (String × String)
  deriving DecidableEq

namespace Arguments

def capacity : Nat := 16

def empty : Arguments := ⟨[]⟩

def size (args : Arguments) : Nat := args.pairs.length

def isEmpty (args : Arguments) : Bool := args.pairs.isEmpty

def get? (args : Arguments) (key : String) : Option String := args.pairs.lookup key

def insert (args : Arguments) (key value : String) : Except ArgumentError Arguments :=
  if key.isEmpty then .error .malformed
  else if (args.get? key).isSome then .error .duplicate
  else if capacity ≤ args.size then .error .tableFull
  else .ok ⟨args.pairs ++ [(key, value)]⟩

/-- The parts of a word before and after its first equals sign. -/
def splitWord? (word : List Char) : Option (String × String) :=
  match word.dropWhile (· != '=') with
  | [] => none
  | _ :: value => some (String.ofList (word.takeWhile (· != '=')), String.ofList value)

/-- The table with the argument that a word spells. -/
def insertWord (args : Arguments) (word : List Char) : Except ArgumentError Arguments :=
  match splitWord? word with
  | none => .error .malformed
  | some (key, value) => args.insert key value

/-- The table of the words of a line; the first word that is refused decides. -/
def ofLine (line : String) : Except ArgumentError Arguments :=
  (Text.words line.toList).foldlM insertWord empty

end Arguments

end BootMemory
