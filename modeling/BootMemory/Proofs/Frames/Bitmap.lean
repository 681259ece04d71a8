import BootMemory.Frames.Region
import Mathlib.Data.Finset.Card
import Mathlib.Data.Nat.Count
import Mathlib.Order.Interval.Finset.Nat

/-!
# Bitmaps as sets

The members of a bitmap are a finite set, and every operation of a bitmap is one on sets. The
search for the first clear bit, which skips full words, finds the least number below the
bound that is not a member. The bits of the last word past the bound stay clear
(`Bitmap.Padded`), so counting the bits of the words counts the members.
-/

set_option autoImplicit false

namespace BootMemory.Bitmap

/-- The numbers below the bound that are in the set. -/
def members (map : Bitmap) : Finset Nat := (Finset.range map.bits).filter (map.contains · = true)

/-- A number is a member exactly if it is below the bound and its bit is set. -/
@[simp] theorem mem_members {map : Bitmap} {i : Nat} :
    i ∈ map.members ↔ i < map.bits ∧ map.contains i = true := by
  simp [members]

/-- An empty bitmap has no members. -/
@[simp] theorem members_empty (bits : Nat) : (empty bits).members = ∅ := by
  ext i
  simp

/-- Setting the bit of a number below the bound adds the number to the members. -/
theorem members_insert {map : Bitmap} {i : Nat} (h : i < map.bits) :
    (map.insert i).members = Insert.insert i map.members := by
  ext j
  simp only [mem_members, bits_insert, contains_insert map i j h, Finset.mem_insert,
    Bool.or_eq_true, decide_eq_true_eq]
  constructor
  · rintro ⟨hj, hmem | rfl⟩
    · exact .inr ⟨hj, hmem⟩
    · exact .inl rfl
  · rintro (rfl | ⟨hj, hmem⟩)
    · exact ⟨h, .inr rfl⟩
    · exact ⟨hj, .inl hmem⟩

/-- Clearing the bit of a number below the bound takes the number out of the members. -/
theorem members_erase {map : Bitmap} {i : Nat} (h : i < map.bits) :
    (map.erase i).members = map.members.erase i := by
  ext j
  simp only [mem_members, bits_erase, contains_erase map i j h, Finset.mem_erase,
    Bool.and_eq_true, Bool.not_eq_true', decide_eq_false_iff_not]
  tauto

/-- Membership is read in the word of the number. -/
theorem contains_eq {map : Bitmap} {i : Nat} (h : i / 32 < wordsFor map.bits) :
    map.contains i = map.words[i / 32].getLsbD (i % 32) := dif_pos h

/-- The bits of every number below the bound lie in the words of the bitmap. -/
theorem div_lt_wordsFor {bits i : Nat} (h : i < bits) : i / 32 < wordsFor bits := by
  unfold wordsFor
  omega

/-- Every bit of a full word is set. -/
theorem getLsbD_fullWord {i : Nat} (h : i < 32) : fullWord.getLsbD i = true := by
  rw [fullWord, BitVec.getLsbD_allOnes, decide_eq_true h]

/-- The words of a full bitmap are those with all their numbers in them. -/
theorem getElem_words_insertAll {map : Bitmap} {index : Nat}
    (h : index < wordsFor map.insertAll.bits) :
    map.insertAll.words[index] = wordOfAll map.bits index := Vector.getElem_ofFn _

/-- All numbers below the bound are in the full set. -/
theorem members_insertAll (map : Bitmap) : map.insertAll.members = Finset.range map.bits := by
  apply Finset.filter_true_of_mem
  intro i hi
  have hlt : i < map.bits := Finset.mem_range.mp hi
  have hword : i / 32 < wordsFor map.insertAll.bits := div_lt_wordsFor hlt
  rw [contains_eq hword]
  simp only [insertAll, Vector.getElem_ofFn]
  have hbit : i % 32 < 32 := Nat.mod_lt _ (by decide)
  unfold wordOfAll
  split_ifs with whole
  · exact getLsbD_fullWord hbit
  · rw [BitVec.getLsbD_ofNat, Nat.testBit_two_pow_sub_one]
    simp only [hbit, decide_true, Bool.true_and, decide_eq_true_eq]
    omega

/-! ## The first clear bit -/

/-- In a word with a clear bit, the lowest clear bit is clear and those below it are set. -/
theorem lowestClear_spec {word : BitVec 32} (h : word ≠ fullWord) :
    lowestClear word < 32 ∧ word.getLsbD (lowestClear word) = false ∧
      ∀ j < lowestClear word, word.getLsbD j = true := by
  cases hfind : (List.range 32).find? fun i => !word.getLsbD i with
  | none =>
    refine absurd (BitVec.eq_of_getLsbD_eq ?_) h
    intro i hi
    have := List.find?_eq_none.mp hfind i (List.mem_range.mpr hi)
    rw [getLsbD_fullWord hi]
    simpa using this
  | some i =>
    obtain ⟨hclear, hmem, hbelow⟩ := List.find?_range_eq_some.mp hfind
    have hlowest : lowestClear word = i := by
      rw [lowestClear, hfind]
      rfl
    rw [hlowest]
    refine ⟨List.mem_range.mp hmem, by simpa using hclear, ?_⟩
    intro j hj
    simpa using hbelow j hj

/-- Where the words below `index` are full, all their numbers are in the set. -/
theorem contains_of_full {map : Bitmap} {i : Nat} (index : Nat)
    (hfull : ∀ j (hj : j < wordsFor map.bits), j < index → map.words[j] = fullWord)
    (hi : i < map.bits) (hlt : i / 32 < index) : map.contains i = true := by
  rw [contains_eq (div_lt_wordsFor hi), hfull _ _ hlt]
  apply getLsbD_fullWord
  exact Nat.mod_lt _ (by decide)

/-- The number that the search finds is below the bound, is no member, and has only members below
it. -/
theorem firstUnset_eq_some {map : Bitmap} {i : Nat} (h : map.firstUnset = some i) :
    i < map.bits ∧ map.contains i = false ∧ ∀ j < i, map.contains j = true := by
  unfold firstUnset at h
  obtain ⟨index, hindex, h⟩ := Option.bind_eq_some_iff.mp h
  obtain ⟨word, hword, h⟩ := Option.bind_eq_some_iff.mp h
  obtain ⟨hsize, hne, hfull⟩ := Array.findIdx?_eq_some_iff_getElem.mp hindex
  obtain ⟨hlt, rfl⟩ := Vector.getElem?_eq_some_iff.mp hword
  have hclear : map.words[index] ≠ fullWord := by simpa using hne
  obtain ⟨hlow, hout, hbelow⟩ := lowestClear_spec hclear
  simp only at h
  split_ifs at h with hbits
  cases h
  refine ⟨hbits, ?_, ?_⟩
  · rw [contains_eq (by omega), show (index * 32 + lowestClear map.words[index]) % 32 =
      lowestClear map.words[index] by omega]
    simp only [show (index * 32 + lowestClear map.words[index]) / 32 = index by omega]
    exact hout
  · intro j hj
    by_cases hsame : j / 32 = index
    · rw [contains_eq (by omega)]
      simp only [hsame]
      exact hbelow _ (by omega)
    · refine contains_of_full index ?_ (by omega) (by omega)
      intro k hk hki
      simpa using hfull k hki

/-- Nothing is found only if everything below the bound is in the set. -/
theorem firstUnset_eq_none {map : Bitmap} (h : map.firstUnset = none) {i : Nat}
    (hi : i < map.bits) : map.contains i = true := by
  unfold firstUnset at h
  cases hindex : map.words.toArray.findIdx? (· != fullWord) with
  | none =>
    refine contains_of_full (wordsFor map.bits) (fun k hk _ => ?_) hi
      (div_lt_wordsFor hi)
    have := Array.findIdx?_eq_none_iff.mp hindex map.words[k] (by simp)
    simpa using this
  | some index =>
    obtain ⟨hsize, hne, hfull⟩ := Array.findIdx?_eq_some_iff_getElem.mp hindex
    have hlt : index < wordsFor map.bits := by simpa using hsize
    have hclear : map.words[index] ≠ fullWord := by simpa using hne
    obtain ⟨hlow, hout, hbelow⟩ := lowestClear_spec hclear
    rw [hindex] at h
    simp only [Option.bind_eq_bind, Option.bind_some, Vector.getElem?_eq_getElem hlt] at h
    split_ifs at h with hbits
    by_cases hsame : i / 32 = index
    · rw [contains_eq (div_lt_wordsFor hi)]
      simp only [hsame]
      exact hbelow _ (by omega)
    · refine contains_of_full index ?_ hi (by omega)
      intro k hk hki
      simpa using hfull k hki

/-! ## Runs of bits -/

/-- Setting a run of bits adds the run, and counts the numbers that were not members. -/
theorem insertRun_spec (map : Bitmap) (bit fresh count : Nat) (h : bit + count ≤ map.bits) :
    (FrameRegion.insertRun map bit fresh count).1.bits = map.bits ∧
      (FrameRegion.insertRun map bit fresh count).1.members =
        map.members ∪ Finset.Ico bit (bit + count) ∧
      (FrameRegion.insertRun map bit fresh count).2 =
        fresh + (Finset.Ico bit (bit + count) \ map.members).card := by
  induction count generalizing map bit fresh with
  | zero => simp [FrameRegion.insertRun]
  | succ count ih =>
    have hbit : bit < map.bits := by omega
    have hrun : Finset.Ico bit (bit + (count + 1)) =
        Insert.insert bit (Finset.Ico (bit + 1) (bit + 1 + count)) := by
      ext i
      simp only [Finset.mem_insert, Finset.mem_Ico]
      omega
    have hnot : bit ∉ Finset.Ico (bit + 1) (bit + 1 + count) := by simp
    unfold FrameRegion.insertRun
    by_cases hmem : map.contains bit = true
    · have hmember : bit ∈ map.members := mem_members.mpr ⟨hbit, hmem⟩
      rw [if_pos hmem, hrun]
      obtain ⟨hbits, hmembers, hfresh⟩ := ih map (bit + 1) fresh (by omega)
      refine ⟨hbits, ?_, ?_⟩
      · rw [hmembers, Finset.union_insert, Finset.insert_eq_of_mem]
        exact Finset.mem_union_left _ hmember
      · rw [hfresh, Finset.insert_sdiff_of_mem _ hmember]
    · have hmember : bit ∉ map.members := fun hm => hmem (mem_members.mp hm).2
      rw [if_neg hmem, hrun]
      obtain ⟨hbits, hmembers, hfresh⟩ := ih (map.insert bit) (bit + 1) (fresh + 1)
        (by rw [bits_insert]; omega)
      refine ⟨hbits, ?_, ?_⟩
      · rw [hmembers, members_insert hbit, Finset.insert_union, Finset.union_insert]
      · rw [hfresh, members_insert hbit, Finset.insert_sdiff_of_notMem _ hmember,
          Finset.card_insert_of_notMem fun hm => hnot (Finset.mem_sdiff.mp hm).1,
          Finset.sdiff_insert_of_notMem hnot]
        omega

/-! ## Counting bits -/

variable {map : Bitmap} {bit : Nat}

/-- The bits of the last word past the bound are clear. -/
def Padded (map : Bitmap) : Prop := ∀ bit, map.bits ≤ bit → map.contains bit = false

/-- An empty bitmap has no bit set past its bound. -/
theorem padded_empty (bits : Nat) : (empty bits).Padded := fun bit _ => contains_empty bits bit

/-- Setting a bit below the bound sets none past it. -/
theorem Padded.insert (h : map.Padded) (hbit : bit < map.bits) : (map.insert bit).Padded := by
  intro other hother
  rw [contains_insert map bit other hbit, h other hother, Bool.false_or, decide_eq_false_iff_not]
  rintro rfl
  exact absurd hbit (Nat.not_lt.mpr hother)

/-- Clearing a bit sets none past the bound. -/
theorem Padded.erase (h : map.Padded) (hbit : bit < map.bits) : (map.erase bit).Padded := by
  intro other hother
  rw [contains_erase map bit other hbit, h other hother, Bool.false_and]

/-- The full set has no bit set past the bound either. -/
theorem padded_insertAll (map : Bitmap) : map.insertAll.Padded := by
  intro bit hbit
  rw [bits_insertAll] at hbit
  by_cases hword : bit / 32 < wordsFor map.insertAll.bits
  · rw [contains_eq hword]
    rw [bits_insertAll, wordsFor] at hword
    simp only [insertAll, Vector.getElem_ofFn, wordOfAll]
    rw [if_neg (by omega), BitVec.getLsbD_ofNat, Nat.testBit_two_pow_sub_one]
    simp only [Bool.and_eq_false_iff, decide_eq_false_iff_not]
    omega
  · exact dif_neg hword

/-- A run of bits below the bound leaves the bits past it alone. -/
theorem Padded.insertRun (h : map.Padded) {fresh count : Nat} (hcount : bit + count ≤ map.bits) :
    (FrameRegion.insertRun map bit fresh count).1.Padded := by
  induction count generalizing map bit fresh with
  | zero => exact h
  | succ count ih =>
    unfold FrameRegion.insertRun
    split
    · exact ih h (by omega)
    · exact ih (h.insert (by omega)) (by rw [bits_insert]; omega)

/-- The set bits of a word are the members among its 32 numbers. -/
theorem onesIn_eq {index : Nat} (h : index < wordsFor map.bits) :
    onesIn map.words[index] = Nat.count (fun i => map.contains (32 * index + i) = true) 32 := by
  refine List.countP_congr fun i hi => ?_
  have hi : i < 32 := List.mem_range.mp hi
  have hmember : map.contains (32 * index + i) = map.words[index].getLsbD i := by
    rw [contains_eq (by omega)]
    simp only [show (32 * index + i) / 32 = index by omega,
      show (32 * index + i) % 32 = i by omega]
  rw [decide_eq_true_iff]
  exact Eq.congr_left hmember.symm

/-- The set bits of the first words are the members among their numbers. -/
theorem sum_onesIn (count : Nat) :
    ((List.range count).map fun index =>
      Nat.count (fun i => map.contains (32 * index + i) = true) 32).sum =
        Nat.count (map.contains · = true) (32 * count) := by
  induction count with
  | zero => rfl
  | succ count ih =>
    rw [List.range_succ, List.map_append, List.sum_append, ih, Nat.mul_succ, Nat.count_add]
    simp

/-- The count adds up the set bits of the words. -/
theorem count_eq_sum (map : Bitmap) : map.count = (map.words.toArray.toList.map onesIn).sum := by
  rw [count, ← Array.foldl_toList, ← List.foldl_map (f := onesIn) (g := (· + ·)),
    ← List.sum_eq_foldl]

/-- Counting the set bits of all words counts the members. -/
theorem Padded.count_eq (h : map.Padded) : map.count = map.members.card := by
  have hwords : map.count = ((List.range (wordsFor map.bits)).map fun index =>
      Nat.count (fun i => map.contains (32 * index + i) = true) 32).sum := by
    rw [count_eq_sum]
    refine congrArg List.sum (List.ext_getElem (by simp) fun index hindex _ => ?_)
    rw [List.getElem_map, List.getElem_map, List.getElem_range, ← onesIn_eq (by simpa using hindex)]
    rfl
  rw [hwords, sum_onesIn]
  have hbits : map.bits ≤ 32 * wordsFor map.bits := by
    unfold wordsFor
    omega
  obtain ⟨spare, hspare⟩ := Nat.exists_eq_add_of_le hbits
  rw [hspare, Nat.count_add, Nat.count_eq_card_filter_range, members, Nat.add_eq_left,
    Nat.count_iff_forall_not]
  intro bit _
  rw [h _ (Nat.le_add_right _ _)]
  exact Bool.false_ne_true

end BootMemory.Bitmap
