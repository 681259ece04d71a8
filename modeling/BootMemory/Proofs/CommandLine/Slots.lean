import BootMemory.Proofs.CommandLine.Table
import Mathlib.Data.List.ReduceOption

/-!
# A table of slots

A table has room for sixteen pairs from the start. `ArgumentSlots` is the table in its slots: the
pairs are those in the slots below a length, an insertion changes the table in place, and every
index and sum is checked. The slots hold the pairs of a table, and nothing after them
(`ArgumentSlots.Holds`), so both answer alike, and no check fails (`ArgumentSlots.Mirrors`).

An insertion that is refused must not have touched a slot yet. It has not, after whatever
insertions (`ArgumentSlots.table_of_line_and_inserts`).
-/

set_option autoImplicit false

namespace BootMemory

/-- Room for pairs, and how many there are. -/
structure ArgumentSlots where
  slots : Vector (Option (String × String)) Arguments.capacity
  len : Nat

namespace ArgumentSlots

def empty : ArgumentSlots := ⟨Vector.replicate Arguments.capacity none, 0⟩

/-- The pairs in the slots below the length. -/
def entries (table : ArgumentSlots) : Except Fault (List (String × String)) :=
  if table.len ≤ Arguments.capacity then .ok (table.slots.toList.take table.len).reduceOption
  else .error .bounds

def get? (table : ArgumentSlots) (key : String) : Except Fault (Option String) := do
  let pairs ← table.entries
  return (pairs.find? fun pair => pair.1 == key).map Prod.snd

/-- The table after an insertion, and why it was refused if it was. -/
def insert (table : ArgumentSlots) (key value : String) :
    Except Fault (Option ArgumentError × ArgumentSlots) := do
  if key.isEmpty then
    return (some .malformed, table)
  let present ← table.get? key
  if present.isSome then
    return (some .duplicate, table)
  if h : table.len < Arguments.capacity then
    let slots := table.slots.set table.len (some (key, value))
    let len ← Word.add table.len 1
    return (none, ⟨slots, len⟩)
  else
    return (some .tableFull, table)

def insertWord (table : ArgumentSlots) (word : List Char) :
    Except Fault (Option ArgumentError × ArgumentSlots) :=
  match Arguments.splitWord? word with
  | none => .ok (some .malformed, table)
  | some (key, value) => table.insert key value

/-- Inserts words until one is refused. -/
def insertWords (table : ArgumentSlots) :
    List (List Char) → Except Fault (Except ArgumentError ArgumentSlots)
  | [] => .ok (.ok table)
  | word :: rest => do
    match ← table.insertWord word with
    | (some error, _) => return .error error
    | (none, next) => next.insertWords rest

def ofLine (line : String) : Except Fault (Except ArgumentError ArgumentSlots) :=
  empty.insertWords (Text.words line.toList)

/-- The table after some insertions, whether they were refused or not. -/
def run (table : ArgumentSlots) (calls : List (String × String)) : Except Fault ArgumentSlots :=
  calls.foldlM (fun table call => do return (← table.insert call.1 call.2).2) table

variable {table next : ArgumentSlots} {args args' : Arguments} {key value : String}
  {error : ArgumentError} {word : List Char}

/-- The slots hold the pairs of a table, and nothing after them. -/
structure Holds (table : ArgumentSlots) (args : Arguments) : Prop where
  len_eq : table.len = args.size
  slots_eq : table.slots.toList =
    args.pairs.map some ++ List.replicate (Arguments.capacity - args.size) none

/-- The empty slots hold the empty table. -/
theorem holds_empty : Holds empty .empty := ⟨rfl, rfl⟩

/-- A table that slots hold has at most as many pairs as there are slots. -/
theorem Holds.size_le (h : table.Holds args) : args.size ≤ Arguments.capacity := by
  have hlength := congrArg List.length h.slots_eq
  rw [Vector.length_toList, List.length_append, List.length_map, List.length_replicate] at hlength
  rw [Arguments.size] at *
  omega

/-- Slots list exactly the pairs of the table that they hold. -/
theorem Holds.entries_eq (h : table.Holds args) : table.entries = .ok args.pairs := by
  have hlength : (args.pairs.map some).length = args.size := List.length_map _
  rw [entries, h.len_eq, if_pos h.size_le, h.slots_eq, List.take_left' hlength,
    List.reduceOption]
  simp

/-- The first pair with a key carries the value that the look-up of the key gives. -/
theorem find?_eq_lookup (pairs : List (String × String)) (key : String) :
    (pairs.find? fun pair => pair.1 == key).map Prod.snd = pairs.lookup key := by
  induction pairs with
  | nil => rfl
  | cons pair rest ih =>
    rw [List.find?_cons, List.lookup_cons, BEq.comm]
    cases key == pair.1 with
    | true => rfl
    | false => exact ih

/-- Slots answer a look-up as the table that they hold. -/
theorem Holds.get?_eq (h : table.Holds args) (key : String) :
    table.get? key = .ok (args.get? key) := by
  rw [get?, h.entries_eq, Outcome.ok_bind, find?_eq_lookup]
  rfl

/-- The next slot takes the next pair. -/
theorem Holds.write (h : table.Holds args) (hlen : table.len < Arguments.capacity)
    (pair : String × String) :
    Holds ⟨table.slots.set table.len (some pair), table.len + 1⟩ ⟨args.pairs ++ [pair]⟩ := by
  have hsize : Arguments.size ⟨args.pairs ++ [pair]⟩ = args.size + 1 := List.length_append
  have hpairs : (args.pairs.map some).length = args.size := List.length_map _
  have hroom : args.size < Arguments.capacity := h.len_eq ▸ hlen
  have hfree : Arguments.capacity - args.size = Arguments.capacity - (args.size + 1) + 1 := by
    omega
  refine ⟨?_, ?_⟩
  · rw [hsize, ← h.len_eq]
  · simp only [Vector.toList_set, h.slots_eq, h.len_eq, hsize]
    rw [List.set_append_right _ _ hpairs.le, hpairs, Nat.sub_self, hfree, List.replicate_succ,
      List.set_cons_zero, List.map_append, List.append_assoc]
    rfl

/-- A new key is only refused for want of a slot. -/
theorem Holds.insert_fresh (h : table.Holds args) (hne : key ≠ "") (hfresh : key ∉ args.keys) :
    table.insert key value =
      if hlen : table.len < Arguments.capacity then
        .ok (none, ⟨table.slots.set table.len (some (key, value)), table.len + 1⟩)
      else .ok (some .tableFull, table) := by
  have hempty : ¬ key.isEmpty = true := mt String.isEmpty_iff.mp hne
  have hpresent : ¬ (args.get? key).isSome = true := mt Arguments.isSome_get?_iff.mp hfresh
  rw [insert, if_neg hempty, h.get?_eq]
  simp only [Outcome.ok_bind, Outcome.pure_eq_ok]
  rw [if_neg hpresent]
  split_ifs with hlen
  · have hword : table.len + 1 < 2 ^ 64 := by
      rw [Arguments.capacity] at hlen
      omega
    rw [Word.add_eq_ok hword, Outcome.ok_bind]
  · rfl

/-- An insertion into slots answers like one into a table. If it is refused, the slots stay as they
are. -/
def Follows (table : ArgumentSlots) (answer : Option ArgumentError × ArgumentSlots) :
    Except ArgumentError Arguments → Prop
  | .error error => answer = (some error, table)
  | .ok args => answer.1 = none ∧ answer.2.Holds args

/-- An insertion into slots has an answer, and it is that of the table that they hold. -/
theorem Holds.insert (h : table.Holds args) (key value : String) :
    ∃ answer, table.insert key value = .ok answer ∧
      table.Follows answer (args.insert key value) := by
  cases hinsert : args.insert key value with
  | error error =>
    refine ⟨_, ?_, rfl⟩
    rcases Arguments.insert_eq_error_iff.mp hinsert with _ | ⟨hne, hm⟩ | ⟨hne, hfresh, hfull⟩
    · rfl
    · have hempty : ¬ key.isEmpty = true := mt String.isEmpty_iff.mp hne
      rw [ArgumentSlots.insert, if_neg hempty, h.get?_eq]
      simp only [Outcome.ok_bind, Outcome.pure_eq_ok]
      rw [if_pos (Arguments.isSome_get?_iff.mpr hm)]
    · rw [h.insert_fresh hne hfresh, dif_neg (h.len_eq ▸ Nat.not_lt.mpr hfull)]
  | ok args' =>
    obtain ⟨hne, hfresh, hroom, rfl⟩ := Arguments.insert_eq_ok_iff.mp hinsert
    have hlen : table.len < Arguments.capacity := h.len_eq ▸ hroom
    rw [h.insert_fresh hne hfresh, dif_pos hlen]
    exact ⟨_, rfl, rfl, h.write hlen (key, value)⟩

/-- Inserting a word into slots has an answer, and it is that of the table that they hold. -/
theorem Holds.insertWord (h : table.Holds args) (word : List Char) :
    ∃ answer, table.insertWord word = .ok answer ∧ table.Follows answer (args.insertWord word) := by
  unfold ArgumentSlots.insertWord Arguments.insertWord
  cases Arguments.splitWord? word with
  | none => exact ⟨_, rfl, rfl⟩
  | some pair => exact h.insert pair.1 pair.2

/-! ## Whole lines, and any insertions -/

/-- The slots answer every question like a table. -/
structure Mirrors (table : ArgumentSlots) (args : Arguments) : Prop where
  holds : table.Holds args
  entries_eq : table.entries = .ok args.pairs
  get?_eq : ∀ key, table.get? key = .ok (args.get? key)

/-- Slots that hold a table list and look up as it does. -/
theorem Holds.mirrors (h : table.Holds args) : table.Mirrors args := ⟨h, h.entries_eq, h.get?_eq⟩

/-- A line leaves slots that mirror its table, or has the same error. -/
def Agrees : Except ArgumentError ArgumentSlots → Except ArgumentError Arguments → Prop
  | .ok table, .ok args => table.Mirrors args
  | .error error, .error other => error = other
  | _, _ => False

/-- Inserting words one after the other agrees with the table that the slots hold, up to the first
refused word. -/
theorem Holds.insertWords (h : table.Holds args) (words : List (List Char)) :
    ∃ result, table.insertWords words = .ok result ∧
      Agrees result (words.foldlM Arguments.insertWord args) := by
  induction words generalizing table args with
  | nil => exact ⟨_, rfl, h.mirrors⟩
  | cons word rest ih =>
    obtain ⟨answer, hanswer, hfollows⟩ := h.insertWord word
    rw [ArgumentSlots.insertWords, List.foldlM_cons, hanswer]
    cases hword : args.insertWord word with
    | error error =>
      rw [hword] at hfollows
      obtain rfl := hfollows
      exact ⟨_, rfl, rfl⟩
    | ok args' =>
      obtain ⟨refused, next⟩ := answer
      rw [hword] at hfollows
      obtain ⟨rfl, hnext⟩ := hfollows
      exact ih hnext

/-- After any sequence of insertions the slots hold what the table has become. -/
theorem Holds.run (h : table.Holds args) (calls : List (String × String)) :
    ∃ last, table.run calls = .ok last ∧ last.Holds (args.after calls) := by
  apply Outcome.foldlM_follows _ h
  intro call _ table args h
  obtain ⟨answer, hanswer, hfollows⟩ := h.insert call.1 call.2
  refine ⟨answer.2, ?_, ?_⟩
  · rw [hanswer]
    rfl
  · cases hinsert : args.insert call.1 call.2 with
    | error error =>
      rw [hinsert] at hfollows
      obtain rfl := hfollows
      exact h
    | ok next =>
      rw [hinsert] at hfollows
      exact hfollows.2

/-- A line of characters reads as words in one way. It has a table exactly if a table lists them,
and then that one, which has of every key the value that a word spells. Otherwise the error is that
of the first word which the table of the words before it refuses. Whatever was inserted, and
whatever of it was refused, a table is well-formed. Its slots answer like it, without a fault, and
stay as they are if the next pair is refused. -/
theorem table_of_line_and_inserts (line : String) (calls : List (String × String)) :
    (∃ words, (∀ other, Text.Reads line.toList other ↔ other = words) ∧
      (∀ args, Arguments.ofLine line = .ok args ↔ args.Lists words) ∧
      (∀ args, Arguments.ofLine line = .ok args → ∀ key value,
        args.get? key = some value ↔ ∃ word ∈ words, Arguments.Spells word key value) ∧
      ∀ error, Arguments.ofLine line = .error error ↔ ∃ before word after args,
        words = before ++ word :: after ∧ Arguments.Lists args before ∧
          args.RefusesWord word error) ∧
    (∃ result, ofLine line = .ok result ∧ Agrees result (Arguments.ofLine line)) ∧
    (Arguments.empty.after calls).WellFormed ∧
    ∃ table, empty.run calls = .ok table ∧ table.Mirrors (Arguments.empty.after calls) ∧
      ∀ key value, ∃ answer, table.insert key value = .ok answer ∧
        table.Follows answer ((Arguments.empty.after calls).insert key value) := by
  refine ⟨⟨Text.words line.toList, ?_, fun args => Arguments.insertWords_eq_ok_iff, ?_,
    fun error => Arguments.insertWords_eq_error_iff⟩, ?_, Arguments.wellFormed_empty.after calls,
    ?_⟩
  · intro other
    rw [← Text.words_eq_iff, eq_comm]
  · intro args hline key value
    exact (Arguments.insertWords_eq_ok_iff.mp hline).get?_eq_some_iff
  · exact holds_empty.insertWords (Text.words line.toList)
  · obtain ⟨table, hrun, hholds⟩ := holds_empty.run calls
    exact ⟨table, hrun, hholds.mirrors, hholds.insert⟩

end ArgumentSlots

end BootMemory
