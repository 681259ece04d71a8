import BootMemory.Fault

/-!
# Bitmaps

A bitmap is a set of numbers below a bound, kept in words of 32 bits: number `i` is bit
`i % 32` of word `i / 32`. The words are exactly as many as the bound needs, and the bits of
the last word past the bound stay clear.

The set is read through `Bitmap.contains`. The lemmas at the end say what every operation
does to it. The operations that a caller may give any number to, `insert?`, `erase?` and
`contains?`, refuse numbers that are not below the bound.
-/

set_option autoImplicit false

namespace BootMemory

/-- The number of 32-bit words that hold `bits` bits. -/
def wordsFor (bits : Nat) : Nat := (bits + 31) / 32

/-- A set of numbers below `bits`. -/
structure Bitmap where
  bits : Nat
  words : Vector (BitVec 32) (wordsFor bits)

namespace Bitmap

def bit (i : Nat) : BitVec 32 := BitVec.twoPow 32 (i % 32)

def fullWord : BitVec 32 := BitVec.allOnes 32

def empty (bits : Nat) : Bitmap := ⟨bits, Vector.replicate _ 0⟩

/-- The empty set over words that already exist; whatever they held is gone. -/
def ofStorage (storage : Array (BitVec 32)) (bits : Nat) : Except Fault Bitmap :=
  if wordsFor bits ≤ storage.size then .ok (empty bits) else .error .storageTooSmall

def contains (map : Bitmap) (i : Nat) : Bool :=
  if h : i / 32 < wordsFor map.bits then map.words[i / 32].getLsbD (i % 32) else false

/-- The bitmap with the word that holds bit `i` changed. -/
def modifyWord (map : Bitmap) (i : Nat) (change : BitVec 32 → BitVec 32) : Bitmap where
  bits := map.bits
  words :=
    if h : i / 32 < wordsFor map.bits then
      map.words.set (i / 32) (change map.words[i / 32])
    else
      map.words

def insert (map : Bitmap) (i : Nat) : Bitmap := map.modifyWord i (· ||| bit i)

def erase (map : Bitmap) (i : Nat) : Bitmap := map.modifyWord i (· &&& ~~~(bit i))

def contains? (map : Bitmap) (i : Nat) : Except Fault Bool :=
  if i < map.bits then .ok (map.contains i) else .error .assertion

def insert? (map : Bitmap) (i : Nat) : Except Fault Bitmap :=
  if i < map.bits then .ok (map.insert i) else .error .assertion

def erase? (map : Bitmap) (i : Nat) : Except Fault Bitmap :=
  if i < map.bits then .ok (map.erase i) else .error .assertion

/-- The set with the numbers from `first` up to, but not including, `stop`; all of them have
to be below the bound. -/
def insertRange? (map : Bitmap) (first stop : Nat) : Except Fault Bitmap :=
  if stop ≤ first ∨ stop ≤ map.bits then
    .ok ((List.range' first (stop - first)).foldl insert map)
  else
    .error .assertion

/-- The word of a set of all numbers below the bound. -/
def wordOfAll (bits : Nat) (index : Nat) : BitVec 32 :=
  if (index + 1) * 32 ≤ bits then fullWord else BitVec.ofNat 32 (2 ^ (bits % 32) - 1)

/-- The set of all numbers below the bound. -/
def insertAll (map : Bitmap) : Bitmap :=
  { map with words := Vector.ofFn fun index => wordOfAll map.bits index }

/-- The position of the lowest clear bit of a word, or 32. -/
def lowestClear (word : BitVec 32) : Nat :=
  ((List.range 32).find? fun i => !word.getLsbD i).getD 32

/-- The number of set bits of a word. -/
def onesIn (word : BitVec 32) : Nat := (List.range 32).countP fun i => word.getLsbD i

/-- The least number below the bound that is not in the set. Words without a clear bit are
skipped as a whole. -/
def firstUnset (map : Bitmap) : Option Nat := do
  let index ← map.words.toArray.findIdx? (· != fullWord)
  let word ← map.words[index]?
  let i := index * 32 + lowestClear word
  if i < map.bits then some i else none

def count (map : Bitmap) : Nat := map.words.toArray.foldl (fun sum word => sum + onesIn word) 0

/-- The mask of a bit has exactly that bit of its word set. -/
theorem getLsbD_bit (i j : Nat) : (bit i).getLsbD j = decide (j = i % 32) := by
  have := Nat.mod_lt i (by decide : 0 < 32)
  by_cases h : j = i % 32 <;> simp [bit, BitVec.getLsbD_twoPow, h, eq_comm, this]

/-- Setting a bit leaves the length of the bitmap alone. -/
@[simp] theorem bits_insert (map : Bitmap) (i : Nat) : (map.insert i).bits = map.bits := rfl

/-- Clearing a bit leaves the length of the bitmap alone. -/
@[simp] theorem bits_erase (map : Bitmap) (i : Nat) : (map.erase i).bits = map.bits := rfl

/-- Setting every bit leaves the length of the bitmap alone. -/
@[simp] theorem bits_insertAll (map : Bitmap) : map.insertAll.bits = map.bits := rfl

/-- No bit of an empty bitmap is set. -/
@[simp] theorem contains_empty (bits i : Nat) : (empty bits).contains i = false := by
  unfold contains empty
  split <;> simp

/-- Changing a word changes the membership of the numbers in that word only. -/
theorem contains_modifyWord (map : Bitmap) (i j : Nat) (change : BitVec 32 → BitVec 32)
    (hi : i / 32 < wordsFor map.bits) :
    (map.modifyWord i change).contains j =
      if j / 32 = i / 32 then (change map.words[i / 32]).getLsbD (j % 32)
      else map.contains j := by
  unfold modifyWord contains
  by_cases hd : j / 32 = i / 32
  · simp [hd, hi]
  · simp only [hi, ↓reduceDIte, hd, ↓reduceIte]
    split
    case isFalse => rfl
    case isTrue hj => rw [Vector.getElem_set_ne _ _ (fun h => hd h.symm)]

/-- A number that is inserted is in the set, and membership of others does not change. -/
theorem contains_insert (map : Bitmap) (i j : Nat) (h : i < map.bits) :
    (map.insert i).contains j = (map.contains j || decide (j = i)) := by
  have hi : i / 32 < wordsFor map.bits := by unfold wordsFor; omega
  rw [insert, contains_modifyWord map i j _ hi]
  split
  case isTrue hd =>
    simp only [BitVec.getLsbD_or, getLsbD_bit, contains, hd, hi, ↓reduceDIte]
    congr 2
    exact propext ⟨fun hm => Nat.ext_div_mod hd hm, fun he => he ▸ rfl⟩
  case isFalse hd =>
    have : j ≠ i := by rintro rfl; exact hd rfl
    simp [this]

/-- A number that is erased is not in the set, and membership of others does not change. -/
theorem contains_erase (map : Bitmap) (i j : Nat) (h : i < map.bits) :
    (map.erase i).contains j = (map.contains j && !decide (j = i)) := by
  have hi : i / 32 < wordsFor map.bits := by unfold wordsFor; omega
  have hlt : j % 32 < 32 := Nat.mod_lt _ (by decide)
  rw [erase, contains_modifyWord map i j _ hi]
  split
  case isTrue hd =>
    simp only [BitVec.getLsbD_and, BitVec.getLsbD_not, getLsbD_bit, contains, hd, hi,
      ↓reduceDIte, hlt, decide_true, Bool.true_and]
    congr 3
    exact propext ⟨fun hm => Nat.ext_div_mod hd hm, fun he => he ▸ rfl⟩
  case isFalse hd =>
    have : j ≠ i := by rintro rfl; exact hd rfl
    simp [this]

end Bitmap

end BootMemory
