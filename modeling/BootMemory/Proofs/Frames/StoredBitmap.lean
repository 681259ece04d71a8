import BootMemory.Proofs.Frames.Bitmap
import BootMemory.Proofs.Outcome
import Mathlib.Order.Bounds.Basic

/-!
# A bitmap in use

A bitmap that is asked for numbers below its bound only is a set. What it answers after any calls is
told by the set that the same calls leave of an empty one (`Bitmap.Represents`,
`Bitmap.calls_represent`).

A bitmap lies in words that were there before, and there may be more of them than it needs.
`StoredBitmap` writes its operations down on such words: the words are cleared, every index into
them is checked, bits are picked by masks, and sums and products have to fit a word. The words in
use are those of the bitmap at every moment, so the answers are the same, and nothing runs over
(`StoredBitmap.Holds`, `StoredBitmap.Mirrors`).
-/

set_option autoImplicit false

namespace BootMemory

/-- A call that changes a bitmap. -/
inductive BitmapCall where
  | insert (i : Nat)
  | erase (i : Nat)
  | insertAll
  deriving DecidableEq

namespace BitmapCall

/-- Whether a call is for a number below the bound, or for none. -/
def InRange (bits : Nat) : BitmapCall → Prop
  | .insert i => i < bits
  | .erase i => i < bits
  | .insertAll => True

/-- What a call does to a set of numbers below a bound. -/
def apply (bits : Nat) (set : Finset Nat) : BitmapCall → Finset Nat
  | .insert i => Insert.insert i set
  | .erase i => set.erase i
  | .insertAll => Finset.range bits

/-- What calls leave of an empty set. -/
def setAfter (bits : Nat) (calls : List BitmapCall) : Finset Nat := calls.foldl (apply bits) ∅

end BitmapCall

namespace Bitmap

variable {map : Bitmap} {bits : Nat} {set : Finset Nat} {call : BitmapCall}

/-- The bitmap after a call. -/
def step (map : Bitmap) : BitmapCall → Except Fault Bitmap
  | .insert i => map.insert? i
  | .erase i => map.erase? i
  | .insertAll => .ok map.insertAll

/-- The bitmap after some calls. -/
def run (map : Bitmap) (calls : List BitmapCall) : Except Fault Bitmap := calls.foldlM step map

/-! ## The answers of a set -/

/-- A bitmap answers like a set of numbers below a bound. -/
structure Represents (map : Bitmap) (bits : Nat) (set : Finset Nat) : Prop where
  bits_eq : map.bits = bits
  below : ∀ i ∈ set, i < bits
  contains_eq : ∀ i < bits, map.contains? i = .ok (decide (i ∈ set))
  count_eq : map.count = set.card
  /-- A number is found exactly if it is the least one that is not in the set. -/
  firstUnset_eq : ∀ i, map.firstUnset = some i ↔ IsLeast {i | i < bits ∧ i ∉ set} i
  firstUnset_none : map.firstUnset = none ↔ set = Finset.range bits
  /-- The bits of the last word that no number has are clear. -/
  padding : ∀ (index : Nat) (h : index < wordsFor map.bits), ∀ bit < 32, bits ≤ 32 * index + bit →
    map.words[index].getLsbD bit = false

/-- What every call keeps: the members of the bitmap are those of the set, and the padding is
clear. -/
structure Models (map : Bitmap) (bits : Nat) (set : Finset Nat) : Prop where
  bits_eq : map.bits = bits
  members_eq : map.members = set
  padded : map.Padded

/-- An empty bitmap models the empty set. -/
theorem models_empty (bits : Nat) : (empty bits).Models bits ∅ :=
  ⟨rfl, members_empty bits, padded_empty bits⟩

/-- A call for a number below the bound does to the bitmap what it does to the set. -/
theorem Models.step (h : map.Models bits set) (hcall : call.InRange bits) :
    ∃ next, map.step call = .ok next ∧ next.Models bits (call.apply bits set) := by
  obtain ⟨rfl, rfl, hpadded⟩ := h
  cases call with
  | insert i => exact ⟨map.insert i, if_pos hcall, rfl, members_insert hcall, hpadded.insert hcall⟩
  | erase i => exact ⟨map.erase i, if_pos hcall, rfl, members_erase hcall, hpadded.erase hcall⟩
  | insertAll => exact ⟨map.insertAll, rfl, rfl, members_insertAll map, padded_insertAll map⟩

/-- Calls for numbers below the bound go through and do to the bitmap what they do to the set. -/
theorem Models.run (h : map.Models bits set) {calls : List BitmapCall}
    (hcalls : ∀ call ∈ calls, call.InRange bits) :
    ∃ last, map.run calls = .ok last ∧
      last.Models bits (calls.foldl (BitmapCall.apply bits) set) :=
  Outcome.foldlM_follows (fun call hm _ _ h => h.step (hcalls call hm)) h

/-- The first clear bit is the least number below the bound that is not a member. -/
theorem firstUnset_eq_some_iff {i : Nat} :
    map.firstUnset = some i ↔ IsLeast {i | i < map.bits ∧ i ∉ map.members} i := by
  constructor
  · intro h
    obtain ⟨hlt, hout, hbelow⟩ := firstUnset_eq_some h
    refine ⟨⟨hlt, fun hm => ?_⟩, fun j hj => ?_⟩
    · rw [(mem_members.mp hm).2] at hout
      cases hout
    · by_contra hlow
      exact hj.2 (mem_members.mpr ⟨hj.1, hbelow j (Nat.not_le.mp hlow)⟩)
  · rintro ⟨⟨hlt, hout⟩, hleast⟩
    cases hfound : map.firstUnset with
    | none => exact absurd (mem_members.mpr ⟨hlt, firstUnset_eq_none hfound hlt⟩) hout
    | some j =>
      obtain ⟨hj, hjout, hbelow⟩ := firstUnset_eq_some hfound
      have hle : i ≤ j := hleast ⟨hj, fun hm => by simp [hjout] at hm⟩
      rcases Nat.lt_or_eq_of_le hle with hlow | rfl
      · exact absurd (mem_members.mpr ⟨hlt, hbelow i hlow⟩) hout
      · rfl

/-- No clear bit is found exactly if all numbers below the bound are members. -/
theorem firstUnset_eq_none_iff : map.firstUnset = none ↔ map.members = Finset.range map.bits := by
  constructor
  · intro h
    ext i
    rw [mem_members, Finset.mem_range]
    exact ⟨And.left, fun hi => ⟨hi, firstUnset_eq_none h hi⟩⟩
  · intro hfull
    apply Option.eq_none_iff_forall_ne_some.mpr
    intro i hsome
    obtain ⟨⟨hlt, hout⟩, -⟩ := firstUnset_eq_some_iff.mp hsome
    rw [hfull, Finset.mem_range] at hout
    exact hout hlt

/-- A bitmap that models a set answers every question like it. -/
theorem Models.represents (h : map.Models bits set) : map.Represents bits set := by
  obtain ⟨rfl, rfl, hpadded⟩ := h
  refine ⟨rfl, fun i hi => (mem_members.mp hi).1, fun i hi => ?_, hpadded.count_eq,
    fun i => firstUnset_eq_some_iff, firstUnset_eq_none_iff, ?_⟩
  · rw [contains?, if_pos hi]
    simp [hi]
  · intro index hindex bit hbit hpast
    have hclear := hpadded _ hpast
    rw [Bitmap.contains_eq (by omega)] at hclear
    simpa only [show (32 * index + bit) / 32 = index by omega,
      show (32 * index + bit) % 32 = bit by omega] using hclear

end Bitmap

/-! ## In words that are there already -/

/-- A bitmap of so many bits in some words, of which there may be more than it needs. -/
structure StoredBitmap where
  bits : Nat
  words : Array (BitVec 32)

namespace StoredBitmap

variable {stored : StoredBitmap} {map : Bitmap} {call : BitmapCall}

/-- The cleared words, if they are enough. -/
def ofStorage (storage : Array (BitVec 32)) (bits : Nat) : Except Fault StoredBitmap :=
  if wordsFor bits ≤ storage.size then .ok ⟨bits, Array.replicate storage.size 0⟩
  else .error .storageTooSmall

def word (stored : StoredBitmap) (index : Nat) : Except Fault (BitVec 32) :=
  match stored.words[index]? with
  | some word => .ok word
  | none => .error .bounds

/-- The words with another one at an index. -/
def setWord (stored : StoredBitmap) (index : Nat) (word : BitVec 32) : Except Fault StoredBitmap :=
  if index < stored.words.size then
    .ok { stored with words := stored.words.setIfInBounds index word }
  else .error .bounds

/-- The words that hold the bits. -/
def used (stored : StoredBitmap) : Except Fault (Array (BitVec 32)) :=
  if wordsFor stored.bits ≤ stored.words.size then
    .ok (stored.words.extract 0 (wordsFor stored.bits))
  else .error .bounds

/-- The word with only the bit of a number. -/
def mask (i : Nat) : BitVec 32 := 1#32 <<< (i % 32)

def contains? (stored : StoredBitmap) (i : Nat) : Except Fault Bool :=
  if i < stored.bits then do
    let word ← stored.word (i / 32)
    return word &&& mask i != 0
  else .error .assertion

def insert? (stored : StoredBitmap) (i : Nat) : Except Fault StoredBitmap :=
  if i < stored.bits then do
    let word ← stored.word (i / 32)
    stored.setWord (i / 32) (word ||| mask i)
  else .error .assertion

def erase? (stored : StoredBitmap) (i : Nat) : Except Fault StoredBitmap :=
  if i < stored.bits then do
    let word ← stored.word (i / 32)
    stored.setWord (i / 32) (word &&& ~~~(mask i))
  else .error .assertion

/-- The words with all bits of the first ones set. -/
def fill (stored : StoredBitmap) (count : Nat) : Except Fault StoredBitmap :=
  if count ≤ stored.words.size then
    .ok { stored with
      words := Array.replicate count (BitVec.allOnes 32) ++ stored.words.extract count }
  else .error .bounds

/-- The words that hold the bits are filled, and the last one is written anew if the bits do not
fill it. -/
def insertAll (stored : StoredBitmap) : Except Fault StoredBitmap := do
  let filled ← stored.fill (wordsFor stored.bits)
  let tail := stored.bits % 32
  if tail = 0 then
    return filled
  else
    let last ← Word.sub (wordsFor stored.bits) 1
    let ones ← Word.sub (2 ^ tail) 1
    filled.setWord last (BitVec.ofNat 32 ones)

/-- The lowest clear bit of the first word that has one, if it is below the bound. -/
def firstUnset (stored : StoredBitmap) : Except Fault (Option Nat) := do
  let words ← stored.used
  match words.findIdx? (· != BitVec.allOnes 32) with
  | none => return none
  | some index =>
    let word ← stored.word index
    let base ← Word.mul index 32
    let i ← Word.add base (Bitmap.lowestClear word)
    return if i < stored.bits then some i else none

/-- The set bits of the words, added up from the left. -/
def count (stored : StoredBitmap) : Except Fault Nat := do
  let words ← stored.used
  (words.toList.map Bitmap.onesIn).foldlM Word.add 0

def step (stored : StoredBitmap) : BitmapCall → Except Fault StoredBitmap
  | .insert i => stored.insert? i
  | .erase i => stored.erase? i
  | .insertAll => stored.insertAll

def run (stored : StoredBitmap) (calls : List BitmapCall) : Except Fault StoredBitmap :=
  calls.foldlM step stored

/-- The first words are those of a bitmap. -/
structure Holds (stored : StoredBitmap) (map : Bitmap) : Prop where
  bits_eq : stored.bits = map.bits
  room : wordsFor map.bits ≤ stored.words.size
  words_eq : ∀ (index : Nat) (h : index < wordsFor map.bits),
    stored.words[index]? = some map.words[index]

/-- Words that are enough are cleared, whatever they held. -/
theorem holds_ofStorage {storage : Array (BitVec 32)} {bits : Nat}
    (h : wordsFor bits ≤ storage.size) :
    ∃ stored, ofStorage storage bits = .ok stored ∧ stored.Holds (.empty bits) := by
  refine ⟨_, if_pos h, rfl, ?_, fun index hindex => ?_⟩
  · rw [Array.size_replicate]
    exact h
  · have hsize : index < storage.size := Nat.lt_of_lt_of_le hindex h
    simp [hsize, Bitmap.empty]

/-- The words that hold a bitmap are read without a fault. -/
theorem Holds.word_eq (h : stored.Holds map) {index : Nat} (hindex : index < wordsFor map.bits) :
    stored.word index = .ok map.words[index] := by
  rw [word, h.words_eq index hindex]

/-- The words that are used are those of the bitmap. -/
theorem Holds.used_eq (h : stored.Holds map) : stored.used = .ok map.words.toArray := by
  rw [used, h.bits_eq, if_pos h.room]
  refine congrArg Except.ok (Array.ext ?_ fun index hindex _ => ?_)
  · rw [Array.size_extract, Nat.min_eq_left h.room, Nat.sub_zero, Vector.size_toArray]
  · rw [Array.size_extract, Nat.min_eq_left h.room, Nat.sub_zero] at hindex
    obtain ⟨_, hword⟩ := Array.getElem?_eq_some_iff.mp (h.words_eq index hindex)
    simp only [Array.getElem_extract, Nat.zero_add, Vector.getElem_toArray]
    exact hword

/-- Writing a word changes that word of the bitmap, and no other. -/
theorem Holds.setWord (h : stored.Holds map) {i : Nat} (hi : i < map.bits)
    (change : BitVec 32 → BitVec 32) :
    ∃ next, (do
      let word ← stored.word (i / 32)
      stored.setWord (i / 32) (change word)) = .ok next ∧
      next.Holds (map.modifyWord i change) := by
  have hword := Bitmap.div_lt_wordsFor hi
  have hsize : i / 32 < stored.words.size := Nat.lt_of_lt_of_le hword h.room
  rw [h.word_eq hword, Outcome.ok_bind, StoredBitmap.setWord, if_pos hsize]
  refine ⟨_, rfl, h.bits_eq, ?_, fun index hindex => ?_⟩
  · rw [Array.size_setIfInBounds]
    exact h.room
  · rw [Array.getElem?_setIfInBounds]
    simp only [Bitmap.modifyWord, dif_pos hword, Vector.getElem_set]
    split_ifs with hsame
    · rfl
    · exact h.words_eq index hindex

/-- Filling the first words changes those, and leaves as many words as there were. -/
theorem fill_eq {count : Nat} (h : count ≤ stored.words.size) :
    ∃ words, stored.fill count = .ok { stored with words } ∧ words.size = stored.words.size ∧
      ∀ index < count, words[index]? = some (BitVec.allOnes 32) := by
  refine ⟨_, if_pos h, ?_, fun index hindex => ?_⟩
  · simp only [Array.size_append, Array.size_replicate, Array.size_extract]
    omega
  · rw [Array.getElem?_append_left (by rwa [Array.size_replicate])]
    simp [hindex]

/-- The words are filled with those of the full set, also the last one. -/
theorem Holds.insertAll (h : stored.Holds map) :
    ∃ next, stored.insertAll = .ok next ∧ next.Holds map.insertAll := by
  obtain ⟨words, hfill, hsize, hfull⟩ := fill_eq h.room
  have hroom := h.room
  unfold StoredBitmap.insertAll
  rw [h.bits_eq, hfill, Outcome.ok_bind]
  simp only
  split_ifs with htail
  · refine ⟨_, rfl, h.bits_eq, hsize ▸ h.room, fun index hindex => ?_⟩
    rw [Bitmap.bits_insertAll] at hindex
    have hwhole : (index + 1) * 32 ≤ map.bits := by
      unfold wordsFor at hindex
      omega
    rw [hfull index hindex, Bitmap.getElem_words_insertAll, Bitmap.wordOfAll, if_pos hwhole]
    rfl
  · have hpos : 1 ≤ wordsFor map.bits := by
      unfold wordsFor
      omega
    have hinside : wordsFor map.bits - 1 < words.size := by omega
    rw [Word.sub_eq_ok hpos, Outcome.ok_bind, Word.sub_eq_ok Nat.one_le_two_pow, Outcome.ok_bind,
      StoredBitmap.setWord, if_pos hinside]
    refine ⟨_, rfl, h.bits_eq, ?_, fun index hindex => ?_⟩
    · rw [Array.size_setIfInBounds, hsize]
      exact hroom
    · rw [Bitmap.bits_insertAll] at hindex
      rw [Array.getElem?_setIfInBounds, hfull index hindex, Bitmap.getElem_words_insertAll,
        Bitmap.wordOfAll]
      by_cases hlast : wordsFor map.bits - 1 = index
      · have hpartial : ¬ (index + 1) * 32 ≤ map.bits := by
          unfold wordsFor at hlast
          omega
        rw [if_pos hlast, if_pos hinside, if_neg hpartial]
      · have hwhole : (index + 1) * 32 ≤ map.bits := by
          unfold wordsFor at hindex hlast
          omega
        rw [if_neg hlast, if_pos hwhole]
        rfl

/-- A call that has an answer on the bitmap has the same on its words. -/
theorem Holds.step (h : stored.Holds map) {next : Bitmap} (hstep : map.step call = .ok next) :
    ∃ stored', stored.step call = .ok stored' ∧ stored'.Holds next := by
  cases call with
  | insert i =>
    rw [Bitmap.step, Bitmap.insert?] at hstep
    split_ifs at hstep with hi
    cases hstep
    rw [StoredBitmap.step, StoredBitmap.insert?, if_pos (h.bits_eq ▸ hi)]
    exact h.setWord hi (· ||| mask i)
  | erase i =>
    rw [Bitmap.step, Bitmap.erase?] at hstep
    split_ifs at hstep with hi
    cases hstep
    rw [StoredBitmap.step, StoredBitmap.erase?, if_pos (h.bits_eq ▸ hi)]
    exact h.setWord hi (· &&& ~~~(mask i))
  | insertAll =>
    cases hstep
    exact h.insertAll

/-- Calls that go through on a bitmap go through on the words that hold it. -/
theorem Holds.run (h : stored.Holds map) {calls : List BitmapCall} {last : Bitmap}
    (hrun : map.run calls = .ok last) :
    ∃ stored', stored.run calls = .ok stored' ∧ stored'.Holds last := by
  induction calls generalizing stored map with
  | nil =>
    cases hrun
    exact ⟨stored, rfl, h⟩
  | cons call rest ih =>
    rw [Bitmap.run, List.foldlM_cons] at hrun
    obtain ⟨next, hstep, hrest⟩ := Outcome.bind_eq_ok.mp hrun
    obtain ⟨stored', hstored, hnext⟩ := h.step hstep
    obtain ⟨stored'', hlast, hholds⟩ := ih hnext hrest
    refine ⟨stored'', ?_, hholds⟩
    rw [StoredBitmap.run, List.foldlM_cons, hstored, Outcome.ok_bind]
    exact hlast

/-! ## The same answers -/

/-- The mask of a number picks its bit. -/
theorem and_mask_ne_zero (word : BitVec 32) (i : Nat) :
    (word &&& mask i != 0) = word.getLsbD (i % 32) := by
  have hlt : i % 32 < 32 := Nat.mod_lt i (by decide)
  have hmask : mask i ≠ 0 := by
    intro hzero
    have hbit := congrArg (BitVec.getLsbD · (i % 32)) hzero
    simp [mask, hlt] at hbit
  rw [show mask i = BitVec.twoPow 32 (i % 32) from rfl] at *
  rw [BitVec.and_twoPow]
  split_ifs with hbit
  · rw [hbit, bne_iff_ne]
    exact hmask
  · rw [Bool.eq_false_iff.mpr hbit]
    rfl

/-- Whether a number is a member is read from the words, with the same fault past the bound. -/
theorem Holds.contains?_eq (h : stored.Holds map) (i : Nat) :
    stored.contains? i = map.contains? i := by
  unfold StoredBitmap.contains? Bitmap.contains?
  rw [h.bits_eq]
  split_ifs with hi
  · have hword := Bitmap.div_lt_wordsFor hi
    rw [h.word_eq hword, Outcome.ok_bind, and_mask_ne_zero, Bitmap.contains_eq hword]
    rfl
  · rfl

/-- The words count the members if the count fits a word. -/
theorem Holds.count_eq (h : stored.Holds map) (hcount : map.count < 2 ^ 64) :
    stored.count = .ok map.count := by
  rw [Bitmap.count_eq_sum] at *
  rw [StoredBitmap.count, h.used_eq, Outcome.ok_bind]
  rw [Outcome.foldlM_add_eq Word.add_eq_ok (by rwa [Nat.zero_add]), Nat.zero_add]

/-- The words find the first clear bit if the bound fits a word. -/
theorem Holds.firstUnset_eq (h : stored.Holds map) (hbits : map.bits < 2 ^ 64) :
    stored.firstUnset = .ok map.firstUnset := by
  unfold StoredBitmap.firstUnset Bitmap.firstUnset
  rw [h.used_eq, Outcome.ok_bind, h.bits_eq, ← Bitmap.fullWord]
  cases hfound : map.words.toArray.findIdx? (· != Bitmap.fullWord) with
  | none => rfl
  | some index =>
    obtain ⟨hsize, hclear, -⟩ := Array.findIdx?_eq_some_iff_getElem.mp hfound
    have hindex : index < wordsFor map.bits := by simpa using hsize
    have hword : map.words[index] ≠ Bitmap.fullWord := by simpa using hclear
    have hlow := (Bitmap.lowestClear_spec hword).1
    have hlast : index * 32 < map.bits := by
      unfold wordsFor at hindex
      omega
    simp only [Option.bind_eq_bind, Option.bind_some, Vector.getElem?_eq_getElem hindex]
    rw [h.word_eq hindex, Outcome.ok_bind, Word.mul_eq_ok (by omega), Outcome.ok_bind,
      Word.add_eq_ok (by omega), Outcome.ok_bind]
    rfl

/-- Words answer every question like a bitmap, without a fault of their own. -/
structure Mirrors (stored : StoredBitmap) (map : Bitmap) : Prop where
  words_eq : ∀ (index : Nat) (h : index < wordsFor map.bits),
    stored.words[index]? = some map.words[index]
  contains_eq : ∀ i, stored.contains? i = map.contains? i
  count_eq : stored.count = .ok map.count
  firstUnset_eq : stored.firstUnset = .ok map.firstUnset

/-- Words that hold a bitmap answer every question like it. -/
theorem Holds.mirrors (h : stored.Holds map) (hbits : map.bits < 2 ^ 64)
    (hcount : map.count ≤ map.bits) : stored.Mirrors map :=
  ⟨h.words_eq, h.contains?_eq, h.count_eq (Nat.lt_of_le_of_lt hcount hbits), h.firstUnset_eq hbits⟩

end StoredBitmap

namespace Bitmap

/-- No more numbers are counted than there are below the bound. -/
theorem Represents.count_le {map : Bitmap} {bits : Nat} {set : Finset Nat}
    (h : map.Represents bits set) : map.count ≤ map.bits := by
  have hsub : set ⊆ Finset.range bits := fun i hi => Finset.mem_range.mpr (h.below i hi)
  calc map.count = set.card := h.count_eq
    _ ≤ (Finset.range bits).card := Finset.card_le_card hsub
    _ = map.bits := by rw [Finset.card_range, h.bits_eq]

/-- A bitmap over any words that are enough, after any calls for numbers below its bound, is the set
that the calls leave of an empty one. If the bound fits a word, then none of the operations on
the words has a fault, and what they answer is the same. -/
theorem calls_represent {storage : Array (BitVec 32)} {bits : Nat} {calls : List BitmapCall}
    (hroom : wordsFor bits ≤ storage.size) (hcalls : ∀ call ∈ calls, call.InRange bits) :
    ∃ map, (ofStorage storage bits >>= (run · calls)) = .ok map ∧
      map.Represents bits (BitmapCall.setAfter bits calls) ∧
      (bits < 2 ^ 64 → ∃ stored,
        (StoredBitmap.ofStorage storage bits >>= (StoredBitmap.run · calls)) = .ok stored ∧
        stored.Mirrors map) := by
  obtain ⟨map, hrun, hmodels⟩ := (models_empty bits).run hcalls
  have hrepresents := hmodels.represents
  refine ⟨map, ?_, hrepresents, fun hbits => ?_⟩
  · rw [ofStorage, if_pos hroom, Outcome.ok_bind]
    exact hrun
  · obtain ⟨cleared, hstorage, hcleared⟩ := StoredBitmap.holds_ofStorage hroom
    obtain ⟨stored, hstored, hholds⟩ := hcleared.run hrun
    refine ⟨stored, ?_, hholds.mirrors (hmodels.bits_eq ▸ hbits) hrepresents.count_le⟩
    rw [hstorage, Outcome.ok_bind]
    exact hstored

/-- All of 70 numbers but one, after calls on three words that were full. -/
theorem calls_represent_three_words :
    ∃ map, (ofStorage (Array.replicate 3 fullWord) 70 >>=
        (run · [.insertAll, .erase 33, .erase 65, .insert 33])) = .ok map ∧
      map.count = 69 ∧ map.firstUnset = some 65 ∧ map.contains? 64 = .ok true ∧
      ∃ stored, (StoredBitmap.ofStorage (Array.replicate 3 fullWord) 70 >>=
        (StoredBitmap.run · [.insertAll, .erase 33, .erase 65, .insert 33])) = .ok stored ∧
        stored.Mirrors map := by
  have hset : BitmapCall.setAfter 70 [.insertAll, .erase 33, .erase 65, .insert 33] =
      (Finset.range 70).erase 65 := by
    decide
  have hcalls : ∀ call ∈ [BitmapCall.insertAll, .erase 33, .erase 65, .insert 33],
      call.InRange 70 := by
    simp [BitmapCall.InRange]
  obtain ⟨map, hrun, hmap, hstored⟩ := calls_represent
    (show wordsFor 70 ≤ (Array.replicate 3 fullWord).size by decide) hcalls
  rw [hset] at hmap
  refine ⟨map, hrun, hmap.count_eq.trans (by decide), ?_, hmap.contains_eq 64 (by decide),
    hstored (by decide)⟩
  apply (hmap.firstUnset_eq 65).mpr
  refine ⟨by simp, ?_⟩
  rintro i ⟨hlt, hout⟩
  have hlast : i = 65 := by simpa [hlt] using hout
  exact hlast.ge

end Bitmap

end BootMemory
