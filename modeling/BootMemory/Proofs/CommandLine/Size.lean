import BootMemory.CommandLine.Size
import BootMemory.Proofs.Outcome
import Mathlib.Data.List.Forall2
import Mathlib.Data.Nat.Digits.Defs
import Mathlib.Tactic.Ring
import Mathlib.Tactic.SplitIfs

/-!
# Which texts are sizes

The grammar of sizes, written down without a reader: what may stand before the digits and choose
the radix (`Lead`), the digits and the number that they write (`Numeral`), and what may stand behind
them and scale the number (`Suffix`). The reader takes exactly the texts of this grammar whose
product fits a word, and those with a plus sign between the first two parts
(`ofString?_eq_some_iff`).

A program tells the scale by the last byte of the text and reads what stands before that byte. It
would fault if the byte were a part of a longer letter. No byte of such a letter is one that scales,
so it reads every text, and reads it as it is read letter by letter (`Checked.ofString?_eq`).
-/

set_option autoImplicit false

namespace BootMemory.Size

variable {radix scale value number bytes : Nat} {c : Char}
  {text lead sign digits suffix : List Char}

/-! ## The grammar -/

/-- A digit of a radix up to sixteen, in either case, and its value. -/
def IsDigit (radix value : Nat) (c : Char) : Prop :=
  value < radix ∧ (c = value.digitChar ∨ c = value.digitChar.toUpper)

/-- What stands before the digits of a radix. -/
inductive Lead : Nat → List Char → Prop where
  | decimal : Lead 10 []
  | lower : Lead 16 ['0', 'x']
  | upper : Lead 16 ['0', 'X']

/-- Both radices are at most sixteen. -/
theorem Lead.radix_le (h : Lead radix lead) : radix ≤ 16 := by cases h <;> decide

/-- A radix is never announced with a plus sign. -/
theorem Lead.plus_notMem (h : Lead radix lead) : '+' ∉ lead := by cases h <;> decide

/-- One digit or more, the first of which weighs most, and the number that they write. -/
def Numeral (radix : Nat) (digits : List Char) (number : Nat) : Prop :=
  ∃ values, values ≠ [] ∧ List.Forall₂ (IsDigit radix) values digits ∧
    number = Nat.ofDigits radix values.reverse

/-- What stands behind the digits, and the scale that it stands for. -/
inductive Suffix : Nat → List Char → Prop where
  | none : Suffix 1 []
  | kilo {c : Char} (h : c = 'K' ∨ c = 'k') : Suffix (2 ^ 10) [c]
  | mega {c : Char} (h : c = 'M' ∨ c = 'm') : Suffix (2 ^ 20) [c]

/-- No suffix scales a number to zero. -/
theorem Suffix.scale_pos (h : Suffix scale suffix) : 0 < scale := by cases h <;> decide

/-- No suffix holds a plus sign. -/
theorem Suffix.plus_notMem (h : Suffix scale suffix) : '+' ∉ suffix := by
  cases h with
  | none => decide
  | kilo h => rcases h with rfl | rfl <;> decide
  | mega h => rcases h with rfl | rfl <;> decide

/-- The text is a size of so many bytes, with a sign directly before its digits. -/
def Denotes (sign : List Char) (text : String) (bytes : Nat) : Prop :=
  ∃ radix lead digits number scale suffix, Lead radix lead ∧ Numeral radix digits number ∧
    Suffix scale suffix ∧ text.toList = lead ++ (sign ++ digits) ++ suffix ∧
    bytes = number * scale ∧ bytes < 2 ^ 64

/-! ## Digits -/

/-- No letter behind `f` has a value. -/
theorem digitValue?_eq_none (h : 103 ≤ c.toNat) : digitValue? c = none := by
  have hbeyond : ∀ d : Char, d.toNat < 103 → ¬ c ≤ d := by
    intro d hd hle
    have hle : c.toNat ≤ d.toNat := UInt32.le_iff_toNat_le.mp hle
    omega
  rw [digitValue?, if_neg fun hand => hbeyond '9' (by decide) hand.2,
    if_neg fun hand => hbeyond 'f' (by decide) hand.2,
    if_neg fun hand => hbeyond 'F' (by decide) hand.2]

/-- The letters that have a value are the digits of radix sixteen. -/
theorem digitValue?_eq_some_iff : digitValue? c = some value ↔ IsDigit 16 value c := by
  constructor
  · intro h
    have hbound : c.toNat < 103 := by
      by_contra hlarge
      rw [digitValue?_eq_none (Nat.le_of_not_lt hlarge)] at h
      cases h
    -- What is left are the letters up to `f`, few enough to look at each.
    have hall : ∀ n < 103, ∀ value ∈ digitValue? (Char.ofNat n), value < 16 ∧
        (Char.ofNat n = value.digitChar ∨ Char.ofNat n = value.digitChar.toUpper) := by
      decide
    rw [← Char.ofNat_toNat c] at h ⊢
    exact hall c.toNat hbound value h
  · have hall : ∀ value < 16, digitValue? value.digitChar = some value ∧
        digitValue? value.digitChar.toUpper = some value := by
      decide
    rintro ⟨hlt, rfl | rfl⟩
    · exact (hall value hlt).1
    · exact (hall value hlt).2

/-- A character is read as a digit exactly when it is a digit of the radix. -/
theorem digit?_eq_some_iff (hradix : radix ≤ 16) :
    digit? radix c = some value ↔ IsDigit radix value c := by
  rw [digit?, Option.filter_eq_some_iff, digitValue?_eq_some_iff, decide_eq_true_eq, IsDigit,
    IsDigit]
  constructor
  · rintro ⟨⟨-, hc⟩, hlt⟩
    exact ⟨hlt, hc⟩
  · rintro ⟨hlt, hc⟩
    exact ⟨⟨hlt.trans_le hradix, hc⟩, hlt⟩

/-- No sign, no letter that chooses the radix and no letter that scales is a digit. -/
theorem IsDigit.notMem (h : IsDigit radix value c) (hradix : radix ≤ 16) :
    c ∉ ['+', 'x', 'X', 'K', 'k', 'M', 'm'] := by
  have hdigit : IsDigit 16 value c := ⟨h.1.trans_le hradix, h.2⟩
  have hsome := digitValue?_eq_some_iff.mpr hdigit
  intro hm
  have hnone : ∀ c ∈ ['+', 'x', 'X', 'K', 'k', 'M', 'm'], digitValue? c = none := by
    simp only [List.forall_mem_cons, List.not_mem_nil, false_implies, implies_true, and_true]
    decide
  rw [hnone c hm] at hsome
  cases hsome

/-- A value before digits is a digit in front of them that may be as large as it likes. -/
theorem digitsFrom?_eq_some_iff (hradix : radix ≤ 16) :
    digitsFrom? radix value digits = some number ↔ ∃ values,
      List.Forall₂ (IsDigit radix) values digits ∧
        number = Nat.ofDigits radix (value :: values).reverse := by
  induction digits generalizing value with
  | nil => simp [digitsFrom?, eq_comm]
  | cons c rest ih =>
    have hstep : ∀ (digit : Nat) (values : List Nat),
        Nat.ofDigits radix (value :: digit :: values).reverse =
          Nat.ofDigits radix ((value * radix + digit) :: values).reverse := by
      intro digit values
      simp only [List.reverse_cons, List.append_assoc, Nat.ofDigits_append, Nat.ofDigits_cons,
        List.cons_append, List.nil_append, Nat.ofDigits_nil]
      ring
    simp only [digitsFrom?, Option.bind_eq_bind, Option.bind_eq_some_iff,
      digit?_eq_some_iff hradix, ih]
    constructor
    · rintro ⟨digit, hdigit, values, hvalues, rfl⟩
      exact ⟨digit :: values, hvalues.cons hdigit, (hstep digit values).symm⟩
    · rintro ⟨_, hvalues, rfl⟩
      obtain ⟨digit, values, hdigit, hrest, rfl⟩ := List.forall₂_cons_right_iff.mp hvalues
      exact ⟨digit, hdigit, values, hrest, hstep digit values⟩

/-- A numeral has at least one digit. -/
theorem Numeral.ne_nil (h : Numeral radix digits number) : digits ≠ [] := by
  obtain ⟨values, hne, hvalues, -⟩ := h
  rintro rfl
  exact hne (List.forall₂_nil_right_iff.mp hvalues)

/-- Every character of a run of digits is a digit of its radix. -/
theorem exists_isDigit {values : List Nat} (h : List.Forall₂ (IsDigit radix) values digits) :
    ∀ c ∈ digits, ∃ value, IsDigit radix value c := by
  induction h with
  | nil => exact nofun
  | cons hvalue _ ih => exact List.forall_mem_cons.mpr ⟨⟨_, hvalue⟩, ih⟩

/-- Digits hold no sign, no letter that chooses the radix and no letter that scales. -/
theorem Numeral.notMem (h : Numeral radix digits number) (hradix : radix ≤ 16) :
    ∀ c ∈ digits, c ∉ ['+', 'x', 'X', 'K', 'k', 'M', 'm'] := by
  obtain ⟨values, -, hvalues, -⟩ := h
  intro c hc
  obtain ⟨value, hvalue⟩ := exists_isDigit hvalues c hc
  exact hvalue.notMem hradix

/-- A numeral, with a sign or without, holds no character that announces a radix or scales the
number. -/
theorem Numeral.signed_notMem (h : Numeral radix digits number) (hradix : radix ≤ 16)
    (hsign : sign = [] ∨ sign = ['+']) :
    ∀ c ∈ sign ++ digits, c ∉ ['x', 'X', 'K', 'k', 'M', 'm'] := by
  rw [List.forall_mem_append]
  refine ⟨?_, fun c hc hm => h.notMem hradix c hc (List.mem_cons_of_mem _ hm)⟩
  rcases hsign with rfl | rfl
  · exact nofun
  · exact List.forall_mem_singleton.mpr (by decide)

/-- Reading a run of digits from zero gives the number that they are the numeral of. -/
theorem digitsFrom?_zero_eq_some_iff (hradix : radix ≤ 16) (hne : digits ≠ []) :
    digitsFrom? radix 0 digits = some number ↔ Numeral radix digits number := by
  rw [digitsFrom?_eq_some_iff hradix, Numeral]
  apply exists_congr
  intro values
  rw [List.reverse_cons, Nat.ofDigits_append_zero]
  refine ⟨fun h => ⟨?_, h⟩, And.right⟩
  rintro rfl
  exact hne (List.forall₂_nil_left_iff.mp h.1)

/-! ## The parts of a size -/

/-- A text is the plus sign, if it has one, and the digits. -/
theorem unsigned_append (text : List Char) :
    ∃ sign, (sign = [] ∨ sign = ['+']) ∧ text = sign ++ unsigned text := by
  unfold unsigned
  split
  · exact ⟨['+'], .inr rfl, rfl⟩
  · exact ⟨[], .inl rfl, rfl⟩

/-- A text that holds no plus sign has none to drop. -/
theorem unsigned_of_notMem (h : '+' ∉ text) : unsigned text = text := by
  cases text with
  | nil => rfl
  | cons c rest =>
    rw [List.mem_cons, not_or] at h
    unfold unsigned
    split
    case h_1 heq => exact absurd (List.cons.inj heq).1.symm h.1
    case h_2 => rfl

/-- A text is read as a number exactly when its digits, less the sign, are a numeral of a number
that fits a word. -/
theorem number?_of_unsigned (hradix : radix ≤ 16) (h : unsigned text = digits) :
    number? radix text = some number ↔ number < 2 ^ 64 ∧ Numeral radix digits number := by
  rw [number?, h]
  cases digits with
  | nil => exact iff_of_false nofun fun hand => hand.2.ne_nil rfl
  | cons c rest =>
    rw [Option.filter_eq_some_iff, digitsFrom?_zero_eq_some_iff hradix (List.cons_ne_nil c rest),
      decide_eq_true_eq, and_comm]

/-- A number may have a plus sign before its digits. -/
theorem number?_eq_some_iff (hradix : radix ≤ 16) :
    number? radix text = some number ↔ number < 2 ^ 64 ∧ ∃ sign digits,
      (sign = [] ∨ sign = ['+']) ∧ text = sign ++ digits ∧ Numeral radix digits number := by
  constructor
  · intro h
    obtain ⟨hfits, hnumeral⟩ := (number?_of_unsigned hradix rfl).mp h
    obtain ⟨sign, hsign, htext⟩ := unsigned_append text
    exact ⟨hfits, sign, unsigned text, hsign, htext, hnumeral⟩
  · rintro ⟨hfits, sign, digits, rfl | rfl, rfl, hnumeral⟩
    · have hplus : '+' ∉ text := fun hm => hnumeral.notMem hradix '+' hm (by decide)
      exact (number?_of_unsigned hradix (unsigned_of_notMem hplus)).mpr ⟨hfits, hnumeral⟩
    · exact (number?_of_unsigned hradix rfl).mpr ⟨hfits, hnumeral⟩

/-- Without an `x` in it a literal is decimal. -/
theorem literal?_of_notMem (hlower : 'x' ∉ text) (hupper : 'X' ∉ text) :
    literal? text = number? 10 text := by
  unfold literal?
  split
  · exact absurd (List.mem_cons_of_mem _ List.mem_cons_self) hlower
  · exact absurd (List.mem_cons_of_mem _ List.mem_cons_self) hupper
  · rfl

/-- A text is what chooses the radix, and a number in it. -/
theorem literal?_append (text : List Char) :
    ∃ radix lead rest, Lead radix lead ∧ text = lead ++ rest ∧
      literal? text = number? radix rest := by
  unfold literal?
  split
  · exact ⟨16, _, _, .lower, rfl, rfl⟩
  · exact ⟨16, _, _, .upper, rfl, rfl⟩
  · exact ⟨10, _, _, .decimal, rfl, rfl⟩

/-- The first letters choose the radix of the number behind them. -/
theorem literal?_eq_some_iff :
    literal? text = some number ↔ number < 2 ^ 64 ∧ ∃ radix lead sign digits, Lead radix lead ∧
      (sign = [] ∨ sign = ['+']) ∧ text = lead ++ (sign ++ digits) ∧
      Numeral radix digits number := by
  constructor
  · intro h
    obtain ⟨radix, lead, rest, hlead, htext, hread⟩ := literal?_append text
    rw [hread, number?_eq_some_iff hlead.radix_le] at h
    obtain ⟨hfits, sign, digits, hsign, rfl, hnumeral⟩ := h
    exact ⟨hfits, radix, lead, sign, digits, hlead, hsign, htext, hnumeral⟩
  · rintro ⟨hfits, radix, lead, sign, digits, hlead, hsign, rfl, hnumeral⟩
    have hnumber : number? radix (sign ++ digits) = some number :=
      (number?_eq_some_iff hlead.radix_le).mpr ⟨hfits, sign, digits, hsign, rfl, hnumeral⟩
    cases hlead with
    | lower => exact hnumber
    | upper => exact hnumber
    | decimal =>
      have hletters := hnumeral.signed_notMem (by decide) hsign
      rw [List.nil_append, literal?_of_notMem (fun hm => hletters 'x' hm (by decide))
        fun hm => hletters 'X' hm (by decide)]
      exact hnumber

/-! ## The scale -/

/-- A text is the digits and what stands behind them. -/
theorem splitScale_append (text : List Char) :
    ∃ suffix, Suffix (splitScale text).2 suffix ∧ text = (splitScale text).1 ++ suffix := by
  unfold splitScale
  split
  case h_1 h => exact ⟨['K'], .kilo (.inl rfl), (List.dropLast_append_getLast? _ h).symm⟩
  case h_2 h => exact ⟨['k'], .kilo (.inr rfl), (List.dropLast_append_getLast? _ h).symm⟩
  case h_3 h => exact ⟨['M'], .mega (.inl rfl), (List.dropLast_append_getLast? _ h).symm⟩
  case h_4 h => exact ⟨['m'], .mega (.inr rfl), (List.dropLast_append_getLast? _ h).symm⟩
  case h_5 => exact ⟨[], .none, (List.append_nil text).symm⟩

/-- If the digits do not end in a letter that scales, they are found again. -/
theorem splitScale_of_append (hsuffix : Suffix scale suffix)
    (hlast : ∀ c, text.getLast? = some c → c ∉ ['K', 'k', 'M', 'm']) :
    splitScale (text ++ suffix) = (text, scale) := by
  cases hsuffix with
  | kilo h =>
    rw [splitScale, List.getLast?_concat, List.dropLast_concat]
    rcases h with rfl | rfl <;> rfl
  | mega h =>
    rw [splitScale, List.getLast?_concat, List.dropLast_concat]
    rcases h with rfl | rfl <;> rfl
  | none =>
    rw [List.append_nil]
    unfold splitScale
    split
    case h_5 => rfl
    all_goals
      rename_i h
      exact absurd (by decide) (hlast _ h)

/-! ## The reader -/

/-- A text is read as a size exactly when its literal is read as a number and the product with the
scale fits a word. -/
theorem ofString?_eq_some {text : String} : ofString? text = some bytes ↔ bytes < 2 ^ 64 ∧
    ∃ number, literal? (splitScale text.toList).1 = some number ∧
      number * (splitScale text.toList).2 = bytes := by
  show ((literal? (splitScale text.toList).1).map
    (· * (splitScale text.toList).2)).filter (· < 2 ^ 64) = some bytes ↔ _
  rw [Option.filter_eq_some_iff, Option.map_eq_some_iff, decide_eq_true_eq, and_comm]

/-- Every text that denotes a size, with a plus sign or without, is read as that size. -/
theorem ofString?_of_denotes {text : String} (hsign : sign = [] ∨ sign = ['+'])
    (h : Denotes sign text bytes) : ofString? text = some bytes := by
  obtain ⟨radix, lead, digits, number, scale, suffix, hlead, hnumeral, hsuffix, htext, rfl,
    hfits⟩ := h
  have hlast : ∀ c, (lead ++ (sign ++ digits)).getLast? = some c → c ∉ ['K', 'k', 'M', 'm'] := by
    intro c hc hm
    rw [← List.append_assoc, List.getLast?_append_of_ne_nil _ hnumeral.ne_nil] at hc
    apply hnumeral.notMem hlead.radix_le c (List.mem_of_getLast? hc)
    exact List.mem_append_right ['+', 'x', 'X'] hm
  rw [ofString?_eq_some, htext, splitScale_of_append hsuffix hlast]
  refine ⟨hfits, number, literal?_eq_some_iff.mpr ⟨?_, ?_⟩, rfl⟩
  · exact (Nat.le_mul_of_pos_right number hsuffix.scale_pos).trans_lt hfits
  · exact ⟨radix, lead, sign, digits, hlead, hsign, rfl, hnumeral⟩

/-- The reader takes the texts of the grammar whose product fits a word, and those with a plus sign
before their digits, and gives the product. -/
theorem ofString?_eq_some_iff {text : String} :
    ofString? text = some bytes ↔ Denotes [] text bytes ∨ Denotes ['+'] text bytes := by
  constructor
  · intro h
    obtain ⟨hfits, number, hnumber, rfl⟩ := ofString?_eq_some.mp h
    obtain ⟨-, radix, lead, sign, digits, hlead, hsign, hbody, hnumeral⟩ :=
      literal?_eq_some_iff.mp hnumber
    obtain ⟨suffix, hsuffix, htext⟩ := splitScale_append text.toList
    have hdenotes : Denotes sign text (number * (splitScale text.toList).2) :=
      ⟨radix, lead, digits, number, _, suffix, hlead, hnumeral, hsuffix, hbody ▸ htext, rfl, hfits⟩
    rcases hsign with rfl | rfl
    · exact .inl hdenotes
    · exact .inr hdenotes
  · rintro (h | h)
    · exact ofString?_of_denotes (.inl rfl) h
    · exact ofString?_of_denotes (.inr rfl) h

example : ofString? "64K" = some 65536 := by decide

example : ofString? "0x+10" = some 16 := by decide

example : ofString? "1MK" = none := by decide

/-- The grammar has no plus sign, so a text is never a size with one and without one. -/
theorem Denotes.not_plain {text : String} (h : Denotes ['+'] text bytes) (other : Nat) :
    ¬ Denotes [] text other := by
  obtain ⟨_, lead, digits, _, _, suffix, -, -, -, htext, -⟩ := h
  have hplus : '+' ∈ text.toList := by
    rw [htext]
    apply List.mem_append_left
    apply List.mem_append_right
    exact List.mem_cons_self
  rintro ⟨radix, lead, digits, number, scale, suffix, hlead, hnumeral, hsuffix, htext, -⟩
  rw [htext, List.nil_append, List.mem_append, List.mem_append] at hplus
  rcases hplus with (hinlead | hindigits) | hinsuffix
  · exact hlead.plus_notMem hinlead
  · exact hnumeral.notMem hlead.radix_le '+' hindigits List.mem_cons_self
  · exact hsuffix.plus_notMem hinsuffix

/-! ## The bytes of a size -/

namespace Checked

/-- The bytes of a text. -/
def utf8 (text : List Char) : List UInt8 := text.flatMap String.utf8EncodeChar

/-- The letters in the first `length` bytes of a text. There have to be so many bytes, and the last
of them has to end a letter. -/
def slice (length : Nat) : List Char → Except Fault (List Char)
  | [] => if length = 0 then .ok [] else .error .bounds
  | c :: rest =>
    if length = 0 then .ok []
    else if c.utf8Size ≤ length then do
      let others ← slice (length - c.utf8Size) rest
      return c :: others
    else .error .bounds

/-- The letters before the last byte of a text. -/
def dropByte (text : List Char) : Except Fault (List Char) := do
  let stop ← Word.sub (utf8 text).length 1
  slice stop text

/-- The digits and the scale of a text that is not empty, told by its last byte. -/
def splitScale (text : List Char) : Except Fault (Option (List Char × Nat)) :=
  match (utf8 text).getLast? with
  | none => return none
  | some byte => do
    if byte = 'K'.toUInt8 ∨ byte = 'k'.toUInt8 then
      let digits ← dropByte text
      return some (digits, 2 ^ 10)
    else if byte = 'M'.toUInt8 ∨ byte = 'm'.toUInt8 then
      let digits ← dropByte text
      return some (digits, 2 ^ 20)
    else
      return some (text, 1)

/-- The number of bytes that a size stands for. -/
def ofString? (text : String) : Except Fault (Option Nat) := do
  match ← splitScale text.toList with
  | none => return none
  | some (digits, scale) => return ((literal? digits).map (· * scale)).filter (· < 2 ^ 64)

/-- Cutting a text at the end of a leading part gives that part: the cut is on a character
boundary. -/
theorem slice_append (digits rest : List Char) :
    slice (utf8 digits).length (digits ++ rest) = .ok digits := by
  induction digits with
  | nil => cases rest <;> rfl
  | cons c others ih =>
    have hpos := c.utf8Size_pos
    have hlength : (utf8 (c :: others)).length = c.utf8Size + (utf8 others).length := by
      rw [utf8, List.flatMap_cons, List.length_append, String.length_utf8EncodeChar, utf8]
    rw [hlength, List.cons_append, slice, if_neg (by omega), if_pos (Nat.le_add_right _ _),
      Nat.add_sub_cancel_left, ih]
    rfl

/-- The last byte of a letter is its number if that is below 128, and not below 128 otherwise. -/
theorem exists_getLast?_utf8EncodeChar (c : Char) :
    ∃ byte, (String.utf8EncodeChar c).getLast? = some byte ∧
      (byte.toNat = c.toNat ∨ 128 ≤ byte.toNat ∧ 128 ≤ c.toNat) := by
  have hval : c.val.toNat = c.toNat := rfl
  rw [String.utf8EncodeChar]
  split_ifs with hone
  · refine ⟨UInt8.ofNat c.val.toNat, rfl, .inl ?_⟩
    rw [UInt8.toNat_ofNat', hval]
    omega
  all_goals
    refine ⟨UInt8.ofNat (c.val.toNat % 64 + 128), rfl, .inr ⟨?_, by omega⟩⟩
    rw [UInt8.toNat_ofNat']
    omega

/-- So a text that ends in the byte of such a letter ends in the letter. -/
theorem getLast?_utf8_eq_iff {letter : Char} (h : letter.toNat < 128) :
    (utf8 text).getLast? = some letter.toUInt8 ↔ text.getLast? = some letter := by
  rcases List.eq_nil_or_concat text with rfl | ⟨others, c, rfl⟩
  · exact iff_of_false nofun nofun
  obtain ⟨byte, hbyte, hcases⟩ := exists_getLast?_utf8EncodeChar c
  have hletter : letter.toUInt8.toNat = letter.toNat := Nat.mod_eq_of_lt (h.trans (by decide))
  rw [List.concat_eq_append, utf8, List.flatMap_append, List.flatMap_singleton,
    List.getLast?_append_of_ne_nil _ String.utf8EncodeChar_ne_nil, hbyte, List.getLast?_concat,
    Option.some.injEq, Option.some.injEq, ← UInt8.toNat_inj, hletter, ← Char.toNat_inj]
  omega

/-- The bytes before the last one are the letters before the last one. -/
theorem dropByte_eq {letter : Char} (h : letter.toNat < 128)
    (hlast : text.getLast? = some letter) : dropByte text = .ok text.dropLast := by
  obtain ⟨others, rfl⟩ := List.getLast?_eq_some_iff.mp hlast
  have hsize : letter.utf8Size = 1 := by
    rw [Char.utf8Size_eq_one_iff]
    exact UInt32.le_iff_toNat_le.mpr (Nat.le_of_lt_succ h)
  have hlength : (utf8 (others ++ [letter])).length = (utf8 others).length + 1 := by
    rw [utf8, List.flatMap_append, List.length_append, List.flatMap_singleton,
      String.length_utf8EncodeChar, hsize, utf8]
  rw [dropByte, hlength, Word.sub_eq_ok_iff.mpr ⟨Nat.le_add_left 1 _, rfl⟩, Outcome.ok_bind,
    Nat.add_sub_cancel, slice_append, List.dropLast_concat]

/-- The last byte tells the scale as the last letter does, and no letter is cut in two. -/
theorem splitScale_eq (hne : text ≠ []) :
    splitScale text = .ok (some (Size.splitScale text)) := by
  have hutf8 : utf8 text ≠ [] := by
    obtain ⟨c, rest, rfl⟩ := List.exists_cons_of_ne_nil hne
    exact List.append_ne_nil_of_left_ne_nil String.utf8EncodeChar_ne_nil _
  have hbyte : ∀ letter : Char, letter.toNat < 128 →
      ((utf8 text).getLast hutf8 = letter.toUInt8 ↔ text.getLast? = some letter) := by
    intro letter h
    rw [← getLast?_utf8_eq_iff h, List.getLast?_eq_some_getLast hutf8, Option.some.injEq]
  rw [splitScale, List.getLast?_eq_some_getLast hutf8]
  simp only [hbyte 'K' (by decide), hbyte 'k' (by decide), hbyte 'M' (by decide),
    hbyte 'm' (by decide)]
  unfold Size.splitScale
  split_ifs with hkilo hmega
  · rcases hkilo with h | h
    all_goals
      rw [dropByte_eq (by decide) h, h]
      rfl
  · rcases hmega with h | h
    all_goals
      rw [dropByte_eq (by decide) h, h]
      rfl
  · rw [not_or] at hkilo hmega
    split
    case h_1 h => exact absurd h hkilo.1
    case h_2 h => exact absurd h hkilo.2
    case h_3 h => exact absurd h hmega.1
    case h_4 h => exact absurd h hmega.2
    case h_5 => rfl

/-- With every byte looked at, a text is read as it is letter by letter, and without a fault. -/
theorem ofString?_eq (text : String) : ofString? text = .ok (Size.ofString? text) := by
  by_cases h : text.toList = []
  · rw [ofString?, Size.ofString?, h]
    rfl
  · rw [ofString?, splitScale_eq h]
    rfl

end Checked

end BootMemory.Size
