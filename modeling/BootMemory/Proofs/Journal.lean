import BootMemory.Traced
import Mathlib.Tactic.SplitIfs

/-!
# Runs that anybody may listen to

A listener has the text of a record made, and making it may fault. A run is legible if the text of
every record that it writes can be made; then its outcome is the same whoever listens. A run breaks
off if this is so for all records but the last; then it is the same for everybody who does not hear
the last one, and those who hear it have read everything before it.
-/

set_option autoImplicit false

namespace BootMemory

variable {α β σ ρ : Type}

/-- Whether the text of a record can be made. -/
def Record.Legible (record : Record) : Prop := ∃ line, record.text () = .ok line

namespace Traced

/-- Whether every record of a run is legible. -/
def Legible (run : Traced α) : Prop := ∀ record ∈ run.records, record.Legible

/-- A plain value is legible: it writes nothing. -/
theorem legible_pure (value : α) : (pure value : Traced α).Legible := fun _ hm => nomatch hm

/-- A computation without a journal is legible. -/
theorem legible_liftM (outcome : Except Fault α) : (liftM outcome : Traced α).Legible :=
  fun _ hm => nomatch hm

/-- A faulting computation is legible if it writes nothing. -/
theorem legible_fault (cause : Fault) : (fault cause : Traced α).Legible := fun _ hm => nomatch hm

/-- Writing legible records is legible. -/
theorem legible_reportAll {records : List Record} (h : ∀ record ∈ records, record.Legible) :
    (reportAll records).Legible := h

/-- Writing a record whose text has a value is legible. -/
theorem legible_report {level : Level} {text : Unit → Except Fault String} {line : String}
    (h : text () = .ok line) : (report level text).Legible :=
  List.forall_mem_singleton.mpr ⟨line, h⟩

/-- Two legible steps are a legible run. The second one matters only for the value that the first
one has. -/
theorem legible_bind_of_ok {first : Traced α} {rest : α → Traced β} (hfirst : first.Legible)
    (hrest : ∀ value, first.outcome = .ok value → (rest value).Legible) :
    (first >>= rest).Legible := by
  show (Traced.bind first rest).Legible
  unfold Traced.bind
  cases houtcome : first.outcome with
  | error cause => exact hfirst
  | ok value => exact List.forall_mem_append.mpr ⟨hfirst, hrest value houtcome⟩

/-- Two legible computations in a row are legible. -/
theorem legible_bind {first : Traced α} {rest : α → Traced β} (hfirst : first.Legible)
    (hrest : ∀ value, (rest value).Legible) : (first >>= rest).Legible :=
  legible_bind_of_ok hfirst fun value _ => hrest value

/-- Changing the value of a run does not change its records. -/
theorem legible_map (f : α → β) {run : Traced α} (h : run.Legible) : (f <$> run).Legible := by
  rw [map_eq_pure_bind]
  exact legible_bind h fun _ => legible_pure _

/-- A run goes on after a computation without records only if that has a value. -/
theorem legible_liftM_bind {outcome : Except Fault α} {rest : α → Traced β}
    (h : ∀ value, outcome = .ok value → (rest value).Legible) :
    ((liftM outcome : Traced α) >>= rest).Legible :=
  legible_bind_of_ok (legible_liftM outcome) h

/-- Legible rounds are a legible loop. -/
theorem legible_loop {step : σ → Traced (σ ⊕ ρ)} (h : ∀ state, (step state).Legible)
    (rounds : Nat) (state : σ) : (loop step rounds state).Legible := by
  induction rounds generalizing state with
  | zero => exact legible_pure _
  | succ rounds ih =>
    rw [loop_succ]
    refine legible_bind (h state) fun result => ?_
    cases result with
    | inl next => exact ih next
    | inr answer => exact legible_pure _

/-- A fold of legible steps is legible. -/
theorem legible_foldl {step : β → α → Traced β} (h : ∀ state x, (step state x).Legible)
    (state : β) (xs : List α) : (foldl step state xs).Legible := by
  induction xs generalizing state with
  | nil => exact legible_pure _
  | cons x rest ih =>
    rw [foldl_cons]
    exact legible_bind (h state x) ih

end Traced

/-! ## What a listener reads -/

namespace Record

/-- The lines that a listener up to a threshold reads of legible records. -/
def lines (threshold : Option Level) (records : List Record) : List (Level × String) :=
  records.filterMap fun record =>
    if record.level.heard threshold then (record.text ()).toOption.map (record.level, ·) else none

/-- A record that is listened to adds its line in front. -/
theorem lines_cons_of_heard {threshold : Option Level} {record : Record} {line : String}
    (hheard : record.level.heard threshold = true) (hline : record.text () = .ok line)
    (rest : List Record) :
    lines threshold (record :: rest) = (record.level, line) :: lines threshold rest := by
  simp [lines, hheard, hline, Except.toOption]

/-- A record that nobody listens to adds no line. -/
theorem lines_cons_of_not_heard {threshold : Option Level} {record : Record}
    (hheard : record.level.heard threshold ≠ true) (rest : List Record) :
    lines threshold (record :: rest) = lines threshold rest := by
  simp [lines, hheard]

/-- A record whose text faults adds no line. -/
theorem lines_cons_of_fault {record : Record} {cause : Fault}
    (hfault : record.text () = .error cause) (threshold : Option Level) (rest : List Record) :
    lines threshold (record :: rest) = lines threshold rest := by
  simp [lines, hfault, Except.toOption]

/-- Legible records are read to their end. -/
theorem transcribe_append {records : List Record} (h : ∀ record ∈ records, record.Legible)
    (threshold : Option Level) (read : List (Level × String)) (rest : List Record) :
    transcribe threshold read (records ++ rest) =
      transcribe threshold ((lines threshold records).reverse ++ read) rest := by
  induction records generalizing read with
  | nil => rfl
  | cons record records ih =>
    obtain ⟨⟨line, hline⟩, hrecords⟩ := List.forall_mem_cons.mp h
    rw [List.cons_append, transcribe]
    by_cases hheard : record.level.heard threshold = true
    · rw [if_pos hheard, hline, lines_cons_of_heard hheard hline, List.reverse_cons,
        List.append_assoc, List.singleton_append]
      exact ih hrecords _
    · rw [if_neg hheard, lines_cons_of_not_heard hheard]
      exact ih hrecords read

/-- Legible records are written out in full, without a fault. -/
theorem transcribe_of_legible {records : List Record} (h : ∀ record ∈ records, record.Legible)
    (threshold : Option Level) :
    transcribe threshold [] records = (lines threshold records, none) := by
  have hall := transcribe_append h threshold [] []
  rw [List.append_nil] at hall
  rw [hall, transcribe, List.append_nil, List.reverse_reverse]

/-- Every listener hears the errors, and who hears nothing else reads just their lines. -/
theorem filter_lines (limit : Level) (records : List Record) :
    (lines (some limit) records).filter (·.1 = .error) = lines (some .error) records := by
  induction records with
  | nil => rfl
  | cons record rest ih =>
    cases hline : record.text () with
    | error cause => rw [lines_cons_of_fault hline, lines_cons_of_fault hline, ih]
    | ok line =>
    by_cases herror : record.level = .error
    · have hheard : ∀ limit, record.level.heard (some limit) = true := by
        intro limit
        rw [herror]
        cases limit <;> rfl
      rw [lines_cons_of_heard (hheard limit) hline, lines_cons_of_heard (hheard .error) hline,
        List.filter_cons_of_pos (by simpa using herror), ih]
    · have hunheard : record.level.heard (some .error) ≠ true := by
        intro hheard
        apply herror
        cases hlevel : record.level <;> rw [hlevel] at hheard <;> first | rfl | cases hheard
      rw [lines_cons_of_not_heard hunheard, ← ih]
      by_cases hheard : record.level.heard (some limit) = true
      · rw [lines_cons_of_heard hheard hline, List.filter_cons_of_neg (by simpa using herror)]
      · rw [lines_cons_of_not_heard hheard]

end Record

namespace Traced

/-- A legible run has its own outcome in front of every listener. -/
theorem observe_of_legible {run : Traced α} (h : run.Legible) (threshold : Option Level) :
    (run.observe threshold).2 = run.outcome := by
  rw [observe, Record.transcribe_of_legible h]

/-- Whether a run has a value, and the same one for every listener. -/
def HasValue (run : Traced α) (value : α) : Prop :=
  ∀ threshold, (run.observe threshold).2 = .ok value

/-- A computation that has a value for every listener has it as its outcome. -/
theorem HasValue.outcome {run : Traced α} {value : α} (h : run.HasValue value) :
    run.outcome = .ok value := by
  rw [← h none, observe_none]

/-- A legible computation has its outcome for every listener. -/
theorem Legible.hasValue {run : Traced α} (h : run.Legible) {value : α}
    (hvalue : run.outcome = .ok value) : run.HasValue value :=
  fun threshold => (observe_of_legible h threshold).trans hvalue

/-- Every listener reads the lines of a legible computation in full. -/
theorem lines_observe_of_legible {run : Traced α} (h : run.Legible) (threshold : Option Level) :
    (run.observe threshold).1 = Record.lines threshold run.records := by
  rw [observe, Record.transcribe_of_legible h]

/-- Whether every record of a run is legible but the last one, which faults for those who hear
it. -/
def BreaksOff (run : Traced α) (level : Level) (cause : Fault) : Prop :=
  ∃ read text, run.records = read ++ [⟨level, text⟩] ∧ (∀ record ∈ read, record.Legible) ∧
    text () = .error cause

variable {level : Level} {cause : Fault}

/-- Who hears the last record has its fault, and everybody else the outcome of the run. -/
theorem observe_of_breaksOff {run : Traced α} (h : run.BreaksOff level cause)
    (threshold : Option Level) : (run.observe threshold).2 =
      if level.heard threshold then .error cause else run.outcome := by
  obtain ⟨read, text, hrecords, hread, htext⟩ := h
  rw [observe, hrecords, Record.transcribe_append hread, Record.transcribe]
  simp only [htext]
  split_ifs <;> rfl

/-- Everybody reads the lines in front of the last record. -/
theorem lines_observe_of_breaksOff {run : Traced α} (h : run.BreaksOff level cause)
    (threshold : Option Level) :
    (run.observe threshold).1 = Record.lines threshold run.records := by
  obtain ⟨read, text, hrecords, hread, htext⟩ := h
  have hlines : Record.lines threshold run.records = Record.lines threshold read := by
    simp [hrecords, Record.lines, htext, Except.toOption]
  rw [hlines, observe, hrecords, Record.transcribe_append hread, Record.transcribe]
  simp only [htext, List.append_nil, List.reverse_reverse]
  split_ifs <;> simp [Record.transcribe]

/-- The records of two computations in a row are those of the first and then those of the second.
-/
theorem records_bind {first : Traced α} {value : α} (h : first.outcome = .ok value)
    (rest : α → Traced β) : (first >>= rest).records = first.records ++ (rest value).records := by
  show (Traced.bind first rest).records = _
  unfold Traced.bind
  rw [h]

/-- A run that breaks off behind a legible step breaks off. -/
theorem BreaksOff.after {first : Traced α} {rest : α → Traced β} {value : α}
    (hfirst : first.Legible) (hvalue : first.outcome = .ok value)
    (h : (rest value).BreaksOff level cause) : (first >>= rest).BreaksOff level cause := by
  obtain ⟨read, text, hrecords, hread, htext⟩ := h
  refine ⟨first.records ++ read, text, ?_, List.forall_mem_append.mpr ⟨hfirst, hread⟩, htext⟩
  rw [records_bind hvalue, hrecords, List.append_assoc]

/-- So does one of which only the first step writes records. -/
theorem BreaksOff.before {first : Traced α} {rest : α → Traced β} {value : α}
    (h : first.BreaksOff level cause) (hvalue : first.outcome = .ok value)
    (hrest : (rest value).records = []) : (first >>= rest).BreaksOff level cause := by
  obtain ⟨read, text, hrecords, hread, htext⟩ := h
  refine ⟨read, text, ?_, hread, htext⟩
  rw [records_bind hvalue, hrest, List.append_nil, hrecords]

end Traced

end BootMemory
