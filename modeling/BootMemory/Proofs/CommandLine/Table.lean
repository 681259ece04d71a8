import BootMemory.Proofs.CommandLine.Words
import BootMemory.Proofs.Outcome
import Mathlib.Data.List.Forall2
import Mathlib.Data.List.Induction
import Mathlib.Data.List.Nodup
import Mathlib.Data.Option.Basic

/-!
# What a table lists

Whatever is inserted, a table stays well-formed: it has no empty key, no key twice, and no more
pairs than there is room for (`Arguments.WellFormed`). A key is refused for one reason, and the
reasons are looked for in a fixed order (`Arguments.Refuses`, `Arguments.insert_eq_error_iff`). So a
key that is in a full table is a duplicate.

The table of a line lists its words, each by the key and the value that it spells, in their order
(`Arguments.Lists`). There is one exactly if every word takes its place in a well-formed table
(`Arguments.insertWords_eq_ok_iff`). Otherwise the first word that does not is refused, for the
reason that the table of the words before it has (`Arguments.insertWords_eq_error_iff`).
-/

set_option autoImplicit false

namespace BootMemory

namespace Arguments

variable {args last next : Arguments} {key value : String} {error : ArgumentError}
  {word : List Char} {words : List (List Char)}

/-! ## One pair -/

def keys (args : Arguments) : List String := args.pairs.map Prod.fst

/-- A table has no empty key, no key twice, and no more pairs than there is room for. -/
structure WellFormed (args : Arguments) : Prop where
  named : ∀ key ∈ args.keys, key ≠ ""
  distinct : args.keys.Nodup
  fits : args.size ≤ capacity

/-- Why a table refuses a key. -/
inductive Refuses (args : Arguments) : String → ArgumentError → Prop where
  | malformed : Refuses args "" .malformed
  /-- The table need not have room. -/
  | duplicate {key : String} (hne : key ≠ "") (hm : key ∈ args.keys) : Refuses args key .duplicate
  | tableFull {key : String} (hne : key ≠ "") (hm : key ∉ args.keys)
      (hfull : capacity ≤ args.size) : Refuses args key .tableFull

/-- The empty table is well formed. -/
theorem wellFormed_empty : WellFormed empty := ⟨nofun, List.nodup_nil, Nat.zero_le _⟩

/-- A look-up finds something exactly for the keys of the table. -/
theorem isSome_get?_iff : (args.get? key).isSome = true ↔ key ∈ args.keys := by
  rw [get?, List.lookup_isSome_iff, keys, List.mem_map]
  simp only [beq_iff_eq, @eq_comm _ key]

/-- A pair is inserted exactly if its key is not empty and is new and the table has room; it then
stands last. -/
theorem insert_eq_ok_iff : args.insert key value = .ok next ↔
    key ≠ "" ∧ key ∉ args.keys ∧ args.size < capacity ∧ next = ⟨args.pairs ++ [(key, value)]⟩ := by
  rw [insert]
  simp only [isSome_get?_iff, String.isEmpty_iff]
  split_ifs with hempty hm hfull
  · simp [hempty]
  · simp [hm]
  · simp [Nat.not_lt.mpr hfull]
  · simp [hempty, hm, Nat.not_le.mp hfull, eq_comm]

/-- A key is refused exactly if there is a reason to. -/
theorem insert_eq_error_iff : args.insert key value = .error error ↔ args.Refuses key error := by
  rw [insert]
  simp only [isSome_get?_iff, String.isEmpty_iff]
  constructor
  · intro h
    split_ifs at h with hempty hm hfull
    · cases h
      exact hempty ▸ .malformed
    · cases h
      exact .duplicate hempty hm
    · cases h
      exact .tableFull hempty hm hfull
  · rintro (_ | ⟨hne, hm⟩ | ⟨hne, hm, hfull⟩)
    · rw [if_pos rfl]
    · rw [if_neg hne, if_pos hm]
    · rw [if_neg hne, if_neg hm, if_pos hfull]

/-- One more pair leaves a table well-formed exactly if it is not refused. -/
theorem wellFormed_concat_iff :
    WellFormed ⟨args.pairs ++ [(key, value)]⟩ ↔
      args.WellFormed ∧ key ≠ "" ∧ key ∉ args.keys ∧ args.size < capacity := by
  have hkeys : keys ⟨args.pairs ++ [(key, value)]⟩ = args.keys ++ [key] := List.map_append
  have hsize : size ⟨args.pairs ++ [(key, value)]⟩ = args.size + 1 := List.length_append
  constructor
  · rintro ⟨hnamed, hdistinct, hfits⟩
    rw [hkeys] at hnamed
    rw [hkeys, ← List.concat_eq_append] at hdistinct
    rw [hsize] at hfits
    obtain ⟨hnamed, hkey⟩ := List.forall_mem_append.mp hnamed
    obtain ⟨hfresh, hdistinct⟩ := (List.nodup_concat _ _).mp hdistinct
    exact ⟨⟨hnamed, hdistinct, Nat.le_of_succ_le hfits⟩, hkey key (List.mem_singleton_self key),
      hfresh, hfits⟩
  · rintro ⟨⟨hnamed, hdistinct, -⟩, hne, hfresh, hroom⟩
    refine ⟨?_, ?_, hsize ▸ hroom⟩
    · rw [hkeys]
      exact List.forall_mem_append.mpr ⟨hnamed, List.forall_mem_singleton.mpr hne⟩
    · rw [hkeys, ← List.concat_eq_append]
      exact hdistinct.concat hfresh

/-- A successful insertion keeps the table well formed. -/
theorem WellFormed.insert (h : args.WellFormed) (hinsert : args.insert key value = .ok next) :
    next.WellFormed := by
  obtain ⟨hne, hfresh, hroom, rfl⟩ := insert_eq_ok_iff.mp hinsert
  exact wellFormed_concat_iff.mpr ⟨h, hne, hfresh, hroom⟩

/-- The table after some insertions. One that is refused is left out. -/
def after (args : Arguments) (calls : List (String × String)) : Arguments :=
  calls.foldl (fun args call => (args.insert call.1 call.2).toOption.getD args) args

/-- Any sequence of insertions keeps the table well formed. -/
theorem WellFormed.after (h : args.WellFormed) (calls : List (String × String)) :
    (args.after calls).WellFormed := by
  induction calls generalizing args with
  | nil => exact h
  | cons call rest ih =>
    have hnext : ((args.insert call.1 call.2).toOption.getD args).WellFormed := by
      cases hinsert : args.insert call.1 call.2 with
      | error error => exact h
      | ok next => exact h.insert hinsert
    exact ih hnext

/-- A well-formed table gives back the pairs that it lists. -/
theorem WellFormed.get?_eq_some_iff (h : args.WellFormed) :
    args.get? key = some value ↔ (key, value) ∈ args.pairs := by
  rw [get?, List.lookup_eq_some_iff]
  constructor
  · rintro ⟨before, after, hpairs, -⟩
    rw [hpairs]
    simp
  · intro hm
    obtain ⟨before, after, hpairs⟩ := List.append_of_mem hm
    refine ⟨before, after, hpairs, fun pair hpair => bne_iff_ne.mpr ?_⟩
    have hdistinct := h.distinct
    rw [keys, hpairs, List.map_append, List.map_cons] at hdistinct
    rintro rfl
    exact (List.nodup_append.mp hdistinct).2.2 pair.1 (List.mem_map_of_mem hpair) pair.1
      List.mem_cons_self rfl

/-! ## The words of a line -/

/-- A table lists words if it is well-formed and has what they spell, in their order. -/
structure Lists (args : Arguments) (words : List (List Char)) : Prop where
  spelled : List.Forall₂ (fun word pair => Spells word pair.1 pair.2) words args.pairs
  wellFormed : args.WellFormed

/-- Why a table refuses a word. -/
inductive RefusesWord (args : Arguments) (word : List Char) : ArgumentError → Prop where
  | unsigned (h : '=' ∉ word) : RefusesWord args word .malformed
  | refused {key value : String} {error : ArgumentError} (hword : Spells word key value)
      (h : args.Refuses key error) : RefusesWord args word error

/-- Words spell pairs one by one exactly when splitting them gives the pairs. -/
theorem spelled_iff {pairs : List (String × String)} :
    List.Forall₂ (fun word pair => Spells word pair.1 pair.2) words pairs ↔
      words.map splitWord? = pairs.map some := by
  rw [← List.forall₂_eq_eq_eq, List.forall₂_map_left_iff, List.forall₂_map_right_iff]
  simp only [← splitWord?_eq_some_iff]

/-- Only the empty table lists no words. -/
theorem lists_nil_iff : args.Lists [] ↔ args = empty := by
  constructor
  · rintro ⟨hspelled, -⟩
    cases args with
    | mk pairs =>
      cases hspelled
      rfl
  · rintro rfl
    exact ⟨.nil, wellFormed_empty⟩

/-- A word is inserted exactly if it spells a pair that is inserted. -/
theorem insertWord_eq_ok_iff : args.insertWord word = .ok next ↔
    ∃ key value, Spells word key value ∧ args.insert key value = .ok next := by
  simp only [← splitWord?_eq_some_iff, insertWord]
  cases splitWord? word with
  | none => simp
  | some pair =>
    obtain ⟨key, value⟩ := pair
    simp

/-- A word is refused with an error exactly when the table refuses the word for that reason. -/
theorem insertWord_eq_error_iff :
    args.insertWord word = .error error ↔ args.RefusesWord word error := by
  rw [insertWord]
  constructor
  · intro h
    split at h
    · next hsplit =>
      cases h
      exact .unsigned (splitWord?_eq_none_iff.mp hsplit)
    · next hsplit => exact .refused (splitWord?_eq_some_iff.mp hsplit) (insert_eq_error_iff.mp h)
  · rintro (hout | ⟨hword, h⟩)
    · rw [splitWord?_eq_none_iff.mpr hout]
    · rw [splitWord?_eq_some_iff.mpr hword]
      exact insert_eq_error_iff.mpr h

/-- A table lists words and one more if the table that lists the words takes it. -/
theorem lists_concat_iff : last.Lists (words ++ [word]) ↔
    ∃ args : Arguments, args.Lists words ∧ args.insertWord word = .ok last := by
  simp only [insertWord_eq_ok_iff, insert_eq_ok_iff]
  constructor
  · rintro ⟨hspelled, hwell⟩
    obtain ⟨pairs⟩ := last
    rw [spelled_iff, List.map_append, List.map_singleton] at hspelled
    obtain ⟨front, back, rfl, hfront, hback⟩ := List.map_eq_append_iff.mp hspelled.symm
    obtain ⟨⟨key, value⟩, rfl, hword⟩ := List.map_eq_singleton_iff.mp hback
    obtain ⟨hwell, hne, hfresh, hroom⟩ := (@wellFormed_concat_iff ⟨front⟩ key value).mp hwell
    exact ⟨⟨front⟩, ⟨spelled_iff.mpr hfront.symm, hwell⟩, key, value,
      splitWord?_eq_some_iff.mp hword.symm, hne, hfresh, hroom, rfl⟩
  · rintro ⟨args, ⟨hspelled, hwell⟩, key, value, hword, hne, hfresh, hroom, rfl⟩
    refine ⟨?_, wellFormed_concat_iff.mpr ⟨hwell, hne, hfresh, hroom⟩⟩
    exact List.rel_append hspelled (.cons hword .nil)

/-- The words are inserted exactly if a table lists them, and then into that one. -/
theorem insertWords_eq_ok_iff : words.foldlM insertWord empty = .ok last ↔ last.Lists words := by
  induction words using List.reverseRecOn generalizing last with
  | nil => rw [lists_nil_iff, List.foldlM_nil, Outcome.pure_eq_ok, Except.ok.injEq, eq_comm]
  | append_singleton words word ih =>
    simp only [lists_concat_iff, List.foldlM_append, Outcome.bind_eq_ok, ih, List.foldlM_cons,
      List.foldlM_nil, Outcome.pure_eq_ok, Except.ok.injEq, exists_eq_right]

example : ofLine "a=1  b= c=x=y" = .ok ⟨[("a", "1"), ("b", ""), ("c", "x=y")]⟩ := by decide

/-- Otherwise a table lists the first words, and refuses the next one. -/
theorem insertWords_eq_error_iff : words.foldlM insertWord empty = .error error ↔
    ∃ before word after args, words = before ++ word :: after ∧ Lists args before ∧
      args.RefusesWord word error := by
  simp only [Outcome.foldlM_eq_error_iff, insertWords_eq_ok_iff, insertWord_eq_error_iff]

example : ofLine "a=1 a=2 =3" = .error .duplicate := by decide

/-- A table has the value of a key from the word that spells it. -/
theorem Lists.get?_eq_some_iff (h : args.Lists words) :
    args.get? key = some value ↔ ∃ word ∈ words, Spells word key value := by
  simp only [h.wellFormed.get?_eq_some_iff, ← splitWord?_eq_some_iff]
  calc (key, value) ∈ args.pairs ↔ some (key, value) ∈ args.pairs.map some :=
        (List.mem_map_of_injective (Option.some_injective _)).symm
    _ ↔ some (key, value) ∈ words.map splitWord? := by rw [spelled_iff.mp h.spelled]
    _ ↔ ∃ word ∈ words, splitWord? word = some (key, value) := List.mem_map

end Arguments

end BootMemory
