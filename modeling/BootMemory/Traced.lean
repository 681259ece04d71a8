import BootMemory.Fault

/-!
# Computations that keep a journal

A traced computation has an outcome, which is a value or a fault, and the records that
it wrote on the way, oldest first. Records survive a fault. The outcome cannot depend on
who listens: the text of a record is produced only when somebody reads it, by
`Traced.observe`. Producing a text may itself fault, and then the reader's run stops at
that record; this is the only way in which listening changes a run.

Loops that may run for as many rounds as there are pages use `Traced.loop` and
`Traced.foldl`, which keep the records in an accumulator; `loop_succ` and `foldl_cons`
say that they are the plain loops.
-/

set_option autoImplicit false

namespace BootMemory

/-- How important a record is. -/
inductive Level where
  | error
  | warn
  | info
  | debug
  | trace
  deriving DecidableEq, Repr

namespace Level

/-- The place of a level in the order from most to least important. -/
def rank : Level → Nat
  | error => 1
  | warn => 2
  | info => 3
  | debug => 4
  | trace => 5

def label : Level → String
  | error => "ERROR"
  | warn => "WARN"
  | info => "INFO"
  | debug => "DEBUG"
  | trace => "TRACE"

def ofName? : String → Option Level
  | "error" => some error
  | "warn" => some warn
  | "info" => some info
  | "debug" => some debug
  | "trace" => some trace
  | _ => none

end Level

/-- One entry of the journal. The text is made when it is read. -/
structure Record where
  level : Level
  text : Unit → Except Fault String

/-- Whether somebody who listens up to `threshold` reads records of `level`. -/
def Level.heard (threshold : Option Level) (level : Level) : Bool :=
  match threshold with
  | none => false
  | some limit => level.rank ≤ limit.rank

/-- A value or a fault, with the records written on the way, oldest first. -/
structure Traced (α : Type) where
  outcome : Except Fault α
  records : List Record

namespace Traced

variable {α β σ ρ : Type}

/-- The first computation, and then, if it gave a value, the second. -/
@[inline] protected def bind (first : Traced α) (rest : α → Traced β) : Traced β :=
  match first.outcome with
  | .ok value =>
    let second := rest value
    ⟨second.outcome, first.records ++ second.records⟩
  | .error fault => ⟨.error fault, first.records⟩

instance : Monad Traced where
  pure value := ⟨.ok value, []⟩
  bind := Traced.bind

instance : MonadLift (Except Fault) Traced where
  monadLift outcome := ⟨outcome, []⟩

def fault (cause : Fault) : Traced α := ⟨.error cause, []⟩

/-- Writes one record. -/
def report (level : Level) (text : Unit → Except Fault String) : Traced Unit :=
  ⟨.ok (), [⟨level, text⟩]⟩

/-- Writes records in their order. -/
def reportAll (records : List Record) : Traced Unit := ⟨.ok (), records⟩

/-- A plain value is its own outcome. -/
@[simp] theorem outcome_pure (value : α) : (pure value : Traced α).outcome = .ok value := rfl

/-- A plain value writes nothing. -/
@[simp] theorem records_pure (value : α) : (pure value : Traced α).records = [] := rfl

/-- Writing a record gives no fault, whatever its text would give. -/
@[simp] theorem outcome_report (level : Level) (text : Unit → Except Fault String) :
    (report level text).outcome = .ok () := rfl

/-- Writing many records gives no fault. -/
@[simp] theorem outcome_reportAll (records : List Record) :
    (reportAll records).outcome = .ok () := rfl

/-- A faulting computation has its cause as outcome. -/
@[simp] theorem outcome_fault (cause : Fault) :
    (fault cause : Traced α).outcome = .error cause := rfl

/-- The outcome of two steps depends on the outcomes of the steps alone. -/
@[simp] theorem outcome_bind (first : Traced α) (rest : α → Traced β) :
    (first >>= rest).outcome = (first.outcome >>= fun value => (rest value).outcome) := by
  show (Traced.bind first rest).outcome = _
  unfold Traced.bind
  cases first.outcome <;> rfl

/-- A computation without a journal keeps its outcome. -/
@[simp] theorem outcome_liftM (outcome : Except Fault α) :
    (liftM outcome : Traced α).outcome = outcome := rfl

/-- A computation without a journal writes nothing. -/
@[simp] theorem records_liftM (outcome : Except Fault α) :
    (liftM outcome : Traced α).records = [] := rfl

/-- Two computations with the same outcome and the same records are one. -/
@[ext] protected theorem ext {s t : Traced α} (ho : s.outcome = t.outcome)
    (hr : s.records = t.records) : s = t := by
  cases s
  cases t
  simp_all

/-- Mapping the identity changes neither the outcome nor the records. -/
protected theorem id_map (t : Traced α) : id <$> t = t := by
  cases t with | mk outcome records => cases outcome <;> simp [Functor.map, Traced.bind]

/-- A plain value is handed on to what follows. -/
protected theorem pure_bind (value : α) (rest : α → Traced β) :
    pure value >>= rest = rest value := by
  apply Traced.ext <;> simp [Bind.bind, Traced.bind, Pure.pure]

/-- Records are joined in their order, however the steps are grouped. -/
protected theorem bind_assoc (t : Traced α) (f : α → Traced β) (g : β → Traced ρ) :
    t >>= f >>= g = t >>= fun value => f value >>= g := by
  cases t with
  | mk outcome records =>
    cases outcome with
    | error cause => rfl
    | ok value =>
      simp only [Bind.bind, Traced.bind]
      cases (f value).outcome <;> simp

instance : LawfulMonad Traced := LawfulMonad.mk' Traced Traced.id_map Traced.pure_bind
  Traced.bind_assoc

/-- The body of `loop`: `written` holds the records of the finished rounds, newest first. -/
def loopFrom (step : σ → Traced (σ ⊕ ρ)) : Nat → σ → List Record → Traced (σ ⊕ ρ)
  | 0, state, written => ⟨.ok (.inl state), written.reverse⟩
  | rounds + 1, state, written =>
    match step state with
    | ⟨.ok (.inl next), new⟩ => loopFrom step rounds next (new.reverseAux written)
    | ⟨.ok (.inr answer), new⟩ => ⟨.ok (.inr answer), (new.reverseAux written).reverse⟩
    | ⟨.error cause, new⟩ => ⟨.error cause, (new.reverseAux written).reverse⟩

/-- Repeats `step` until it gives an answer, at most `rounds` times. -/
def loop (step : σ → Traced (σ ⊕ ρ)) (rounds : Nat) (state : σ) : Traced (σ ⊕ ρ) :=
  loopFrom step rounds state []

/-- A loop that starts with records already written writes its own behind them. -/
theorem loopFrom_eq (step : σ → Traced (σ ⊕ ρ)) (rounds : Nat) (state : σ)
    (written : List Record) :
    loopFrom step rounds state written =
      ⟨(loop step rounds state).outcome,
        written.reverse ++ (loop step rounds state).records⟩ := by
  induction rounds generalizing state written with
  | zero => simp [loop, loopFrom]
  | succ rounds ih =>
    unfold loop loopFrom
    cases step state with
    | mk outcome new =>
      cases outcome with
      | error cause => simp
      | ok value =>
        cases value with
        | inl next =>
          simp only [List.reverseAux_eq]
          rw [ih next (new.reverse ++ written), ih next (new.reverse ++ [])]
          simp
        | inr answer => simp

/-- A loop with no rounds left stops in the state it is in. -/
@[simp] theorem loop_zero (step : σ → Traced (σ ⊕ ρ)) (state : σ) :
    loop step 0 state = pure (.inl state) := rfl

/-- A loop of one more round is one step followed by the shorter loop. -/
theorem loop_succ (step : σ → Traced (σ ⊕ ρ)) (rounds : Nat) (state : σ) :
    loop step (rounds + 1) state =
      step state >>= fun
        | .inl next => loop step rounds next
        | .inr answer => pure (.inr answer) := by
  show loopFrom step (rounds + 1) state [] = Traced.bind _ _
  unfold loopFrom Traced.bind
  cases step state with
  | mk outcome new =>
    cases outcome with
    | error cause => simp
    | ok value =>
      cases value with
      | inl next => simp [loopFrom_eq]
      | inr answer => simp

/-- The body of `foldl`: `written` holds the records of the finished rounds, newest first. -/
def foldlFrom (step : β → α → Traced β) : β → List α → List Record → Traced β
  | state, [], written => ⟨.ok state, written.reverse⟩
  | state, x :: xs, written =>
    match step state x with
    | ⟨.ok next, new⟩ => foldlFrom step next xs (new.reverseAux written)
    | ⟨.error cause, new⟩ => ⟨.error cause, (new.reverseAux written).reverse⟩

/-- Runs `step` over a list from the left. -/
def foldl (step : β → α → Traced β) (state : β) (xs : List α) : Traced β :=
  foldlFrom step state xs []

/-- A fold that starts with records already written writes its own behind them. -/
theorem foldlFrom_eq (step : β → α → Traced β) (state : β) (xs : List α)
    (written : List Record) :
    foldlFrom step state xs written =
      ⟨(foldl step state xs).outcome, written.reverse ++ (foldl step state xs).records⟩ := by
  induction xs generalizing state written with
  | nil => simp [foldl, foldlFrom]
  | cons x xs ih =>
    unfold foldl foldlFrom
    cases step state x with
    | mk outcome new =>
      cases outcome with
      | error cause => simp
      | ok next =>
        simp only [List.reverseAux_eq]
        rw [ih next (new.reverse ++ written), ih next (new.reverse ++ [])]
        simp

/-- A fold over nothing keeps its state. -/
@[simp] theorem foldl_nil (step : β → α → Traced β) (state : β) :
    foldl step state [] = pure state := rfl

/-- A fold over a longer list is one step followed by the shorter fold. -/
theorem foldl_cons (step : β → α → Traced β) (state : β) (x : α) (xs : List α) :
    foldl step state (x :: xs) = step state x >>= fun next => foldl step next xs := by
  show foldlFrom step state (x :: xs) [] = Traced.bind _ _
  unfold foldlFrom Traced.bind
  cases step state x with
  | mk outcome new =>
    cases outcome with
    | error cause => simp
    | ok next => simp [foldlFrom_eq]

end Traced

namespace Record

/-- The lines that a listener up to `threshold` reads, oldest first, and the fault that
stopped the reading, if a text could not be made. `read` holds the lines so far, newest
first. -/
def transcribe (threshold : Option Level) (read : List (Level × String)) :
    List Record → List (Level × String) × Option Fault
  | [] => (read.reverse, none)
  | record :: rest =>
    if record.level.heard threshold then
      match record.text () with
      | .ok line => transcribe threshold ((record.level, line) :: read) rest
      | .error cause => (read.reverse, some cause)
    else
      transcribe threshold read rest

end Record

/-- A run as a listener up to `threshold` sees it: the lines read, and the outcome, which
is the fault of the first text that could not be made if there is one. -/
def Traced.observe {α : Type} (threshold : Option Level) (run : Traced α) :
    List (Level × String) × Except Fault α :=
  match Record.transcribe threshold [] run.records with
  | (lines, none) => (lines, run.outcome)
  | (lines, some cause) => (lines, .error cause)

/-- Without a listener no text is made. -/
theorem Record.transcribe_none (read : List (Level × String)) (records : List Record) :
    Record.transcribe none read records = (read.reverse, none) := by
  induction records with
  | nil => rfl
  | cons record rest ih => simpa [Record.transcribe, Level.heard] using ih

/-- Without a listener a run shows its own outcome and no line. -/
theorem Traced.observe_none {α : Type} (run : Traced α) :
    run.observe none = ([], run.outcome) := by
  simp [Traced.observe, Record.transcribe_none]

end BootMemory
