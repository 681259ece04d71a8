import BootMemory.CommandLine.Arguments
import Mathlib.Data.List.TakeWhile

/-!
# What a line reads as

A line is blanks and words in turn. `Text.Reads` says so without a reader: a word is a longest
stretch without a blank, and there are only blanks between words. Every line reads as the words that
are cut from it, and as no others (`Text.words_eq_iff`).

`Arguments.Spells` says what a word is for the table, also without a reader: a key that has no
equals sign, an equals sign, and a value that may have some. A word with an equals sign spells one
key and one value (`Arguments.splitWord?_eq_some_iff`), and other words spell nothing
(`Arguments.splitWord?_eq_none_iff`).
-/

set_option autoImplicit false

namespace BootMemory

namespace Text

/-- A line of characters reads as words. -/
inductive Reads : List Char → List (List Char) → Prop where
  | nil : Reads [] []
  | blank {c : Char} {line : List Char} {words : List (List Char)} (hblank : isBlank c = true)
      (hline : Reads line words) : Reads (c :: line) words
  /-- A word ends at a blank, or where the line ends. -/
  | word {word rest : List Char} {words : List (List Char)} (hne : word ≠ [])
      (hword : ∀ c ∈ word, isBlank c = false) (hend : ∀ c ∈ rest.head?, isBlank c = true)
      (hrest : Reads rest words) : Reads (word ++ rest) (word :: words)

variable {word rest line : List Char} {words : List (List Char)}

/-- A line reads as what is cut from it, also where a word has begun. -/
theorem reads_wordsFrom (h : ∀ c ∈ word.reverse, isBlank c = false) :
    Reads (word.reverse ++ line) (wordsFrom word line) := by
  induction line generalizing word with
  | nil =>
    rw [wordsFrom]
    split_ifs with hempty
    · rw [List.isEmpty_iff.mp hempty]
      exact .nil
    · exact .word (by simpa using hempty) h nofun .nil
  | cons c rest ih =>
    have hrest : Reads rest (wordsFrom [] rest) := @ih [] nofun
    rw [wordsFrom]
    split_ifs with hblank hempty
    · rw [List.isEmpty_iff.mp hempty]
      exact .blank hblank hrest
    · have hend : ∀ x ∈ (c :: rest).head?, isBlank x = true := by
        rintro x ⟨⟩
        exact hblank
      exact .word (by simpa using hempty) h hend (.blank hblank hrest)
    · have hlonger : ∀ x ∈ (c :: word).reverse, isBlank x = false := by
        rw [List.reverse_cons]
        exact List.forall_mem_append.mpr ⟨h, by simpa using hblank⟩
      simpa using ih hlonger

/-- The letters of a word are read one after the other. -/
theorem wordsFrom_append (hword : ∀ c ∈ word, isBlank c = false) (begun : List Char) :
    wordsFrom begun (word ++ rest) = wordsFrom (word.reverse ++ begun) rest := by
  induction word generalizing begun with
  | nil => rfl
  | cons c word ih =>
    obtain ⟨hc, hrest⟩ := List.forall_mem_cons.mp hword
    rw [List.cons_append, wordsFrom, if_neg (Bool.eq_false_iff.mp hc), ih hrest, List.reverse_cons,
      List.append_assoc, List.singleton_append]

/-- A blank before the words of a line is left out. -/
theorem words_cons_of_blank {c : Char} (hblank : isBlank c = true) :
    Text.words (c :: line) = Text.words line := by
  simp [Text.words, wordsFrom, hblank]

/-- At a blank, and at the end of the line, a word that has begun is complete. -/
theorem wordsFrom_of_head? (hne : word ≠ []) (hend : ∀ c ∈ rest.head?, isBlank c = true) :
    wordsFrom word rest = word.reverse :: Text.words rest := by
  have hempty : ¬ word.isEmpty = true := mt List.isEmpty_iff.mp hne
  cases rest with
  | nil =>
    rw [wordsFrom, if_neg hempty]
    rfl
  | cons c rest =>
    have hblank : isBlank c = true := hend c rfl
    rw [wordsFrom, if_pos hblank, if_neg hempty, words_cons_of_blank hblank, Text.words]

/-- What is cut from a line is what it reads as. -/
theorem words_eq_iff : Text.words line = words ↔ Reads line words := by
  constructor
  · rintro rfl
    exact @reads_wordsFrom [] line nofun
  · intro h
    induction h with
    | nil => rfl
    | blank hblank _ ih => rw [words_cons_of_blank hblank, ih]
    | word hne hword hend _ ih =>
      rw [Text.words, wordsFrom_append hword, List.append_nil,
        wordsFrom_of_head? (List.reverse_ne_nil_iff.mpr hne) hend, List.reverse_reverse, ih]

end Text

namespace Arguments

variable {word : List Char} {key value : String}

/-- A word is a key, an equals sign and a value. The equals sign is the first one of the word. -/
def Spells (word : List Char) (key value : String) : Prop :=
  '=' ∉ key.toList ∧ word = key.toList ++ '=' :: value.toList

/-- What is before the first equals sign of a word is its key. -/
theorem splitWord?_eq_some_iff : splitWord? word = some (key, value) ↔ Spells word key value := by
  constructor
  · intro h
    unfold splitWord? at h
    split at h
    · cases h
    · next c rest hdrop =>
      cases h
      have hsign : c = '=' := by
        have hhead := List.head?_dropWhile_not (· != '=') word
        rw [hdrop] at hhead
        simpa using hhead
      refine ⟨fun hm => ?_, ?_⟩
      · rw [String.toList_ofList] at hm
        simpa using List.mem_takeWhile_imp hm
      · rw [String.toList_ofList, String.toList_ofList]
        calc word = word.takeWhile (· != '=') ++ word.dropWhile (· != '=') :=
              List.takeWhile_append_dropWhile.symm
          _ = word.takeWhile (· != '=') ++ '=' :: rest := by rw [hdrop, hsign]
  · rintro ⟨hkey, rfl⟩
    have hletters : ∀ c ∈ key.toList, (c != '=') = true := fun c hc =>
      bne_iff_ne.mpr fun heq => hkey (heq ▸ hc)
    rw [splitWord?, List.dropWhile_append_of_pos hletters, List.takeWhile_append_of_pos hletters]
    simp

/-- A word without an equals sign is not cut, and no other. -/
theorem splitWord?_eq_none_iff : splitWord? word = none ↔ '=' ∉ word := by
  constructor
  · intro h hm
    unfold splitWord? at h
    split at h
    · next hdrop =>
      have hall := List.dropWhile_eq_nil_iff.mp hdrop '=' hm
      simp at hall
    · cases h
  · intro hout
    apply Option.eq_none_iff_forall_ne_some.mpr
    rintro ⟨key, value⟩ hsplit
    obtain ⟨-, rfl⟩ := splitWord?_eq_some_iff.mp hsplit
    simp at hout

end Arguments

end BootMemory
