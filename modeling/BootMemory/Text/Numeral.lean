import BootMemory.Arithmetic

/-!
# Numerals in messages

Addresses and sizes appear in messages in four shapes: bare lower-case hexadecimal,
lower-case hexadecimal of at least eight digits, upper-case hexadecimal of at least
eight digits, and decimal numbers pushed to the right of a column. Every shape is a
list of digits with a filler in front, so one padding function serves them all.
-/

set_option autoImplicit false

namespace BootMemory.Text

/-- `digits` with `fill` repeated in front until there are at least `width` characters. -/
def padded (width : Nat) (fill : Char) (digits : List Char) : List Char :=
  List.replicate (width - digits.length) fill ++ digits

/-- The result is as long as the wider of the column and the digits. -/
theorem length_padded (width : Nat) (fill : Char) (digits : List Char) :
    (padded width fill digits).length = max width digits.length := by
  simp only [padded, List.length_append, List.length_replicate]
  omega

/-- Lower-case hexadecimal without padding, as in `0x9fc00`. -/
def hex (n : Nat) : String :=
  "0x" ++ String.ofList (Nat.toDigits 16 n)

/-- Lower-case hexadecimal of at least eight digits, as in `0x0009fc00`. -/
def hexWide (n : Nat) : String :=
  "0x" ++ String.ofList (padded 8 '0' (Nat.toDigits 16 n))

/-- Upper-case hexadecimal of at least eight digits, as in `0xC0100000`. -/
def hexAddress (n : Nat) : String :=
  "0x" ++ String.ofList (padded 8 '0' ((Nat.toDigits 16 n).map Char.toUpper))

/-- A decimal number in a column of `width` characters, blanks in front. -/
def rightAligned (width n : Nat) : String :=
  String.ofList (padded width ' ' (Nat.toDigits 10 n))

end BootMemory.Text
