import BootMemory.Arithmetic

/-!
# Sizes on the command line

A size is a number in decimal digits, or in hexadecimal digits after `0x`, and may end in
`K` or `M` for 2^10 or 2^20. A plus sign may stand directly before the digits. The size,
scaled, has to fit a 64-bit word.
-/

set_option autoImplicit false

namespace BootMemory.Size

/-- The value of a digit in any radix up to sixteen. -/
def digitValue? (c : Char) : Option Nat :=
  if '0' ≤ c ∧ c ≤ '9' then some (c.toNat - '0'.toNat)
  else if 'a' ≤ c ∧ c ≤ 'f' then some (c.toNat - 'a'.toNat + 10)
  else if 'A' ≤ c ∧ c ≤ 'F' then some (c.toNat - 'A'.toNat + 10)
  else none

/-- The value of a digit that exists in the radix. -/
def digit? (radix : Nat) (c : Char) : Option Nat :=
  (digitValue? c).filter (· < radix)

/-- The value of digits that follow a number already read. -/
def digitsFrom? (radix value : Nat) : List Char → Option Nat
  | [] => some value
  | c :: rest => do
    let digit ← digit? radix c
    digitsFrom? radix (value * radix + digit) rest

/-- The digits of a number without the plus sign that may stand before them. -/
def unsigned : List Char → List Char
  | '+' :: digits => digits
  | digits => digits

/-- A number in the radix that fits a 64-bit word. -/
def number? (radix : Nat) (text : List Char) : Option Nat :=
  match unsigned text with
  | [] => none
  | digits => (digitsFrom? radix 0 digits).filter (· < 2 ^ 64)

/-- The digits of a size and the scale that its last letter stands for. -/
def splitScale (text : List Char) : List Char × Nat :=
  match text.getLast? with
  | some 'K' | some 'k' => (text.dropLast, 2 ^ 10)
  | some 'M' | some 'm' => (text.dropLast, 2 ^ 20)
  | _ => (text, 1)

/-- A number in the radix that its first letters choose. -/
def literal? : List Char → Option Nat
  | '0' :: 'x' :: digits => number? 16 digits
  | '0' :: 'X' :: digits => number? 16 digits
  | digits => number? 10 digits

/-- The number of bytes that a size stands for. -/
def ofString? (text : String) : Option Nat :=
  let (digits, scale) := splitScale text.toList
  ((literal? digits).map (· * scale)).filter (· < 2 ^ 64)

end BootMemory.Size
