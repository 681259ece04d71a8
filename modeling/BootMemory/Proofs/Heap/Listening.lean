import BootMemory.Proofs.Heap.Supply
import BootMemory.Proofs.Heap.Window
import BootMemory.Proofs.Journal

/-!
# Listening to a window

A window tells its listeners which pages it backs, and where it had to stop. The texts ask for the
addresses of pages, and one of them is an address that the work itself never needs: the end of the
pages that were backed. If a window reaches up to the last address, this end is no address once the
last page is backed, so who hears the message has an overflow where everybody else goes on. That is
the only difference (`WindowRun.listening_stops_at_the_top`): the pages that are backed and released
are the same for everybody, and so are all outcomes of runs that do not come to the last page.
-/

set_option autoImplicit false

namespace BootMemory

variable {β : Type} [PageBacking β]

/-! ## Backings that can be listened to -/

/-- A backing whose own records can be read. -/
class LegibleBacking (β : Type) [PageBacking β] : Prop where
  back (addr : VirtAddr) (pages : β) : (PageBacking.back addr pages).Legible
  release (addr : VirtAddr) (pages : β) : (PageBacking.release addr pages).Legible

/-- A call of a page backing. -/
inductive BackingCall where
  | back (addr : VirtAddr)
  | release (addr : VirtAddr)
  deriving DecidableEq

/-- A backing that notes every call where each listener hears it, in words of somebody's choice.
What the backing itself would write is left out. -/
structure Noted (β : Type) where
  pages : β
  note : BackingCall → String

namespace Noted

instance : PageBacking (Noted β) where
  back addr noted := do
    Traced.report .error fun _ => .ok (noted.note (.back addr))
    let (answer, pages) ← (PageBacking.back addr noted.pages).outcome
    return (answer, { noted with pages })
  release addr noted := do
    Traced.report .error fun _ => .ok (noted.note (.release addr))
    let pages ← (PageBacking.release addr noted.pages).outcome
    return { noted with pages }

instance : LegibleBacking (Noted β) where
  back _ _ := Traced.legible_bind (Traced.legible_report rfl) fun _ =>
    Traced.legible_bind (Traced.legible_liftM _) fun _ => Traced.legible_pure _
  release _ _ := Traced.legible_bind (Traced.legible_report rfl) fun _ =>
    Traced.legible_bind (Traced.legible_liftM _) fun _ => Traced.legible_pure _

end Noted

namespace PagedGrowth

variable {growth other : PagedGrowth} {pages next : β} {bytes units : Nat}

/-! ## The records of a window -/

section Legible

variable [LegibleBacking β]

/-- What is reported while one page is backed can be written out. -/
theorem legible_backNext (growth : PagedGrowth) (progress : Progress β) :
    (backNext growth progress).Legible := by
  refine Traced.legible_bind (Traced.legible_liftM _) fun addr => ?_
  refine Traced.legible_bind (LegibleBacking.back addr progress.pages) fun answer => ?_
  obtain ⟨answer, pages⟩ := answer
  cases answer <;> exact Traced.legible_pure _

/-- What is reported while pages are released can be written out. -/
theorem legible_releaseRange (growth : PagedGrowth) (first stop : Nat) (pages : β) :
    (releaseRange growth first stop pages).Legible :=
  Traced.legible_foldl (fun _ _ => Traced.legible_bind (Traced.legible_liftM _) fun addr =>
    LegibleBacking.release addr _) _ _

omit [LegibleBacking β] in
/-- The page that was refused has its address, since it was asked for. -/
theorem pageAt_of_refused {rounds : Nat} {progress last : Progress β} {cause : MappingError}
    (hloop : (Traced.loop (backNext growth) rounds progress).outcome = .ok (.inr (cause, last))) :
    ∃ addr, growth.pageAt last.offset = .ok addr := by
  induction rounds generalizing progress with
  | zero => cases hloop
  | succ rounds ih =>
    rw [Traced.loop_succ, Traced.outcome_bind, Outcome.bind_eq_ok] at hloop
    obtain ⟨result, hresult, hloop⟩ := hloop
    unfold backNext at hresult
    simp only [Traced.outcome_bind, Outcome.bind_eq_ok] at hresult
    obtain ⟨addr, haddr, ⟨answer, pages⟩, -, hresult⟩ := hresult
    cases answer with
    | error cause =>
      cases hresult
      cases hloop
      exact ⟨addr, haddr⟩
    | ok _ =>
      cases hresult
      exact ih hloop

/-- What is said about the pages between two offsets that were backed. -/
def backedText (growth : PagedGrowth) (first stop : Nat) : Except Fault String := do
  let low ← growth.pageAt first
  let high ← growth.pageAt stop
  return "heap: backed " ++ low.text ++ " .. " ++ high.text

/-- Backing pages either moves nothing and is legible, or its last record says which pages were
backed, and all others are legible. -/
theorem records_backUntil (bytes : Nat) (growth : PagedGrowth) (pages : β) :
    (backUntil bytes growth pages).Legible ∧
        (∀ answer other next,
          (backUntil bytes growth pages).outcome = .ok (answer, other, next) → other = growth) ∨
      ∃ other next read, (backUntil bytes growth pages).outcome = .ok (.ok (), other, next) ∧
        growth.mapped < other.mapped ∧ (∀ record ∈ read, record.Legible) ∧
        (backUntil bytes growth pages).records =
          read ++ [⟨.debug, fun _ => backedText growth growth.mapped other.mapped⟩] := by
  unfold backUntil
  generalize (bytes + (pageBytes - 1)) / pageBytes * pageBytes = stop
  have hloop : (Traced.loop (backNext growth) ((stop - growth.mapped) / pageBytes)
      ⟨growth.mapped, pages⟩).Legible := Traced.legible_loop (legible_backNext growth) _ _
  by_cases hmore : ∃ progress, (Traced.loop (backNext growth) ((stop - growth.mapped) / pageBytes)
      ⟨growth.mapped, pages⟩).outcome = .ok (.inl progress) ∧ growth.mapped < stop
  · obtain ⟨progress, hprogress, hmore⟩ := hmore
    refine .inr ⟨{ growth with mapped := stop }, progress.pages, _, ?_, hmore, hloop, ?_⟩
    · simp only [Traced.outcome_bind, hprogress, Outcome.ok_bind, if_pos hmore,
        Traced.outcome_report, Traced.outcome_pure]
    · rw [Traced.records_bind hprogress]
      simp only [if_pos hmore]
      rfl
  refine .inl ⟨Traced.legible_bind_of_ok hloop fun result hresult => ?_, ?_⟩
  · cases result with
    | inl progress =>
      simp only
      rw [if_neg fun hlt => hmore ⟨progress, hresult, hlt⟩]
      exact Traced.legible_pure _
    | inr refusal =>
      obtain ⟨cause, progress⟩ := refusal
      obtain ⟨addr, haddr⟩ := pageAt_of_refused hresult
      refine Traced.legible_bind (Traced.legible_report (by rw [haddr]; rfl)) fun _ => ?_
      exact Traced.legible_bind (legible_releaseRange _ _ _ _) fun _ => Traced.legible_pure _
  · intro answer other next houtcome
    rw [Traced.outcome_bind, Outcome.bind_eq_ok] at houtcome
    obtain ⟨result, hresult, houtcome⟩ := houtcome
    cases result with
    | inl progress =>
      simp only at houtcome
      rw [if_neg fun hlt => hmore ⟨progress, hresult, hlt⟩] at houtcome
      cases houtcome
      rfl
    | inr refusal =>
      simp only [Traced.outcome_bind, Traced.outcome_report, Outcome.ok_bind,
        Outcome.bind_eq_ok] at houtcome
      obtain ⟨last, -, houtcome⟩ := houtcome
      cases houtcome
      rfl

end Legible

/-- If enough pages are backed already, nothing happens. -/
theorem backUntil_of_le (hmapped : pageBytes ∣ growth.mapped) (hbytes : bytes ≤ growth.mapped)
    (pages : β) : backUntil bytes growth pages = pure (.ok (), growth, pages) := by
  have hstop : (bytes + (pageBytes - 1)) / pageBytes * pageBytes ≤ growth.mapped := by
    obtain ⟨count, hcount⟩ := hmapped
    rw [show pageBytes = 4096 from rfl] at *
    omega
  unfold backUntil
  simp only [Nat.sub_eq_zero_of_le hstop, Nat.zero_div, Traced.loop_zero, pure_bind,
    if_neg (Nat.not_lt_of_le hstop)]

/-- The text about pages that were backed can be made, unless they reach up to the end of the
address space. -/
theorem backedText_cases {first stop : Nat} (hlt : first < stop)
    (hlast : growth.start.toNat + stop ≤ 2 ^ 32) (hword : stop < 2 ^ 32) :
    (growth.start.toNat + stop < 2 ^ 32 ∧ ∃ line, backedText growth first stop = .ok line) ∨
      growth.start.toNat + stop = 2 ^ 32 ∧ backedText growth first stop = .error .overflow := by
  have hlow : growth.start.toNat + first < 2 ^ 32 := by omega
  unfold backedText
  rw [pageAt_of_lt hlow, Outcome.ok_bind]
  by_cases htop : growth.start.toNat + stop < 2 ^ 32
  · exact .inl ⟨htop, _, by rw [pageAt_of_lt htop]; rfl⟩
  · refine .inr ⟨by omega, ?_⟩
    rw [pageAt, Nat.mod_eq_of_lt hword, VirtAddr.add, VirtAddr.add?, dif_neg htop]
    rfl

end PagedGrowth

/-! ## Runs that come to the top -/

/-- Whether a run can be listened to as far as it goes: it is legible and does not come to the top,
or it comes to the top with a last debug record that runs over. -/
def Traced.Audible {α : Type} (run : Traced α) (top : α → Prop) : Prop :=
  (run.Legible ∧ ∀ value, run.outcome = .ok value → ¬ top value) ∨
    run.BreaksOff .debug .overflow ∧ ∃ value, run.outcome = .ok value ∧ top value

/-- A plain value below the top is audible. -/
theorem Traced.audible_pure {α : Type} {value : α} {top : α → Prop} (h : ¬ top value) :
    (pure value : Traced α).Audible top := by
  refine .inl ⟨Traced.legible_pure value, ?_⟩
  rintro _ ⟨⟩
  exact h

/-- A run is audible if its first step is, and what follows is audible too, or has nothing to say
once the top is reached. -/
theorem Traced.Audible.bind {α ρ : Type} {first : Traced α} {rest : α → Traced ρ} {top : α → Prop}
    {top' : ρ → Prop} (h : first.Audible top)
    (hrest : ∀ value, first.outcome = .ok value → ¬ top value → (rest value).Audible top')
    (hsilent : ∀ value, first.outcome = .ok value → top value →
      ∃ last, rest value = pure last ∧ top' last) : (first >>= rest).Audible top' := by
  rcases h with ⟨hlegible, hbelow⟩ | ⟨hbreaks, value, hvalue, htop⟩
  · cases hfirst : first.outcome with
    | error fault =>
      refine .inl ⟨Traced.legible_bind_of_ok hlegible fun value hvalue => ?_, ?_⟩
      · rw [hfirst] at hvalue
        cases hvalue
      · intro value hvalue
        rw [Traced.outcome_bind, hfirst] at hvalue
        cases hvalue
    | ok value =>
      have houtcome : (first >>= rest).outcome = (rest value).outcome := by
        rw [Traced.outcome_bind, hfirst, Outcome.ok_bind]
      unfold Traced.Audible
      rw [houtcome]
      rcases hrest value hfirst (hbelow value hfirst) with ⟨hlegible', hbelow'⟩ | ⟨hbreaks, htop⟩
      · refine .inl ⟨Traced.legible_bind_of_ok hlegible fun other hother => ?_, hbelow'⟩
        rw [hfirst] at hother
        cases hother
        exact hlegible'
      · exact .inr ⟨hbreaks.after hlegible hfirst, htop⟩
  · obtain ⟨last, hlast, htop'⟩ := hsilent value hvalue htop
    refine .inr ⟨hbreaks.before hvalue (by rw [hlast]; rfl), last, ?_, htop'⟩
    rw [Traced.outcome_bind, hvalue, Outcome.ok_bind, hlast, Traced.outcome_pure]

namespace PagedGrowth

variable {growth other : PagedGrowth} {pages next : β} {bytes units : Nat}

/-- A window whose bounds are in order and that reaches no further than the address space. -/
structure Inside (growth : PagedGrowth) : Prop where
  inOrder : growth.InOrder
  fits : growth.start.toNat + growth.maxBytes ≤ 2 ^ 32
  word : growth.maxBytes < 2 ^ 32

/-- Whether the backed bytes end where the address space ends. -/
def AtTop (growth : PagedGrowth) : Prop := growth.start.toNat + growth.mapped = 2 ^ 32

/-- At the top everything that the window has is backed. -/
theorem Inside.mapped_eq (h : growth.Inside) (htop : growth.AtTop) :
    growth.mapped = growth.maxBytes := by
  have := h.inOrder.mapped_le
  have := h.fits
  unfold AtTop at htop
  omega

/-- A window that goes on with its bounds in order stays inside the address space. -/
theorem Inside.continues (h : growth.Inside) (hin : other.InOrder)
    (hplace : Continues growth other) : other.Inside := by
  refine ⟨hin, ?_, ?_⟩
  · rw [hplace.start_eq, hplace.maxBytes_eq]
    exact h.fits
  · rw [hplace.maxBytes_eq]
    exact h.word

/-- Backing pages beforehand keeps a window inside the address space. -/
theorem Inside.prefill (h : growth.Inside) {answer : Except GrowthError Unit}
    (hp : (prefill bytes growth pages).outcome = .ok (answer, other, next)) : other.Inside :=
  h.continues (h.inOrder.prefill hp).1 (continues_prefill hp)

/-- An extension keeps a window inside the address space. -/
theorem Inside.extend (h : growth.Inside) {answer : Except GrowthError Nat}
    (he : (extend units growth pages).outcome = .ok (answer, other, next)) : other.Inside :=
  h.continues (h.inOrder.extend he).sound (h.inOrder.continues_extend he)

/-- Below the top, backing pages is audible. -/
theorem Inside.audible_backUntil [LegibleBacking β] (h : growth.Inside) (hbelow : ¬ growth.AtTop)
    (hbytes : bytes ≤ growth.maxBytes) (pages : β) :
    (backUntil bytes growth pages).Audible fun result => result.2.1.AtTop := by
  rcases records_backUntil bytes growth pages with
    ⟨hlegible, hsame⟩ | ⟨other, next, read, houtcome, hmore, hread, hrecords⟩
  · refine .inl ⟨hlegible, ?_⟩
    rintro ⟨answer, other, next⟩ houtcome
    rw [hsame answer other next houtcome]
    exact hbelow
  have hother : other.mapped ≤ growth.maxBytes ∧ other.start = growth.start := by
    rcases backUntil_ok houtcome with ⟨cause, hcause, -⟩ | ⟨-, rfl⟩
    · cases hcause
    · exact ⟨(h.inOrder.backed hbytes).mapped_le, rfl⟩
  have hfits : growth.start.toNat + other.mapped ≤ 2 ^ 32 :=
    Nat.le_trans (Nat.add_le_add_left hother.1 _) h.fits
  rcases backedText_cases hmore hfits (Nat.lt_of_le_of_lt hother.1 h.word) with
    ⟨hlt, line, hline⟩ | ⟨htop, hfault⟩
  · refine .inl ⟨?_, ?_⟩
    · unfold Traced.Legible
      rw [hrecords]
      exact List.forall_mem_append.mpr ⟨hread, List.forall_mem_singleton.mpr ⟨line, hline⟩⟩
    · intro result hresult
      rw [houtcome] at hresult
      cases hresult
      show ¬other.start.toNat + other.mapped = 2 ^ 32
      rw [hother.2]
      exact Nat.ne_of_lt hlt
  · refine .inr ⟨⟨read, _, hrecords, hread, hfault⟩, _, houtcome, ?_⟩
    show other.start.toNat + other.mapped = 2 ^ 32
    rw [hother.2]
    exact htop

/-- At the top every call has its answer at once. -/
theorem Inside.backUntil_of_atTop (h : growth.Inside) (htop : growth.AtTop)
    (hbytes : bytes ≤ growth.maxBytes) (pages : β) :
    backUntil bytes growth pages = pure (.ok (), growth, pages) :=
  backUntil_of_le h.inOrder.mapped (h.mapped_eq htop ▸ hbytes) pages

end PagedGrowth

namespace WindowRun

open PagedGrowth

variable {state next : WindowRun β}

/-- A call keeps a window inside the address space. -/
theorem inside_step (h : state.growth.Inside) {call : WindowCall} {answer : WindowAnswer}
    (hstep : (state.step call).outcome = .ok (answer, next)) : next.growth.Inside := by
  cases call with
  | prefill bytes =>
    simp only [step, Traced.outcome_bind, Outcome.bind_eq_ok] at hstep
    obtain ⟨⟨answer, growth, pages⟩, hprefill, hstep⟩ := hstep
    cases hstep
    exact h.prefill hprefill
  | extend units =>
    simp only [step, Traced.outcome_bind, Outcome.bind_eq_ok] at hstep
    obtain ⟨⟨answer, growth, pages⟩, hextend, hstep⟩ := hstep
    cases hstep
    exact h.extend hextend

/-- Below the top, every call is audible. -/
theorem audible_step [LegibleBacking β] (h : state.growth.Inside) (hbelow : ¬ state.growth.AtTop)
    (call : WindowCall) : (state.step call).Audible fun result => result.2.growth.AtTop := by
  cases call with
  | prefill bytes =>
    have hprefill : (prefill bytes state.growth state.pages).Audible
        fun result => result.2.1.AtTop := by
      unfold prefill
      split_ifs with hexcess
      · exact Traced.audible_pure hbelow
      · exact h.audible_backUntil hbelow (Nat.le_of_not_lt hexcess) state.pages
    exact hprefill.bind (fun _ _ hvalue => Traced.audible_pure hvalue)
      fun _ _ htop => ⟨_, rfl, htop⟩
  | extend units =>
    suffices hextend : (extend units state.growth state.pages).Audible
        fun result => result.2.1.AtTop from
      hextend.bind (fun _ _ hvalue => Traced.audible_pure hvalue) fun _ _ htop => ⟨_, rfl, htop⟩
    unfold extend
    cases hadvance : advance? state.growth.brk units state.growth.maxBytes with
    | none => exact Traced.audible_pure hbelow
    | some target =>
      obtain ⟨-, htarget, -⟩ := advance?_eq_some hadvance
      refine Traced.Audible.bind (h.audible_backUntil hbelow htarget state.pages) ?_ ?_
      · rintro ⟨answer, growth, pages⟩ - hvalue
        cases answer <;> exact Traced.audible_pure hvalue
      · rintro ⟨answer, growth, pages⟩ - htop
        cases answer <;> exact ⟨_, rfl, htop⟩

/-- At the top, every call has its answer at once. -/
theorem step_of_atTop (h : state.growth.Inside) (htop : state.growth.AtTop) (call : WindowCall) :
    ∃ answer next, state.step call = pure (answer, next) ∧ next.growth.AtTop := by
  cases call with
  | prefill bytes =>
    by_cases hexcess : state.growth.maxBytes < bytes
    · simp only [step, PagedGrowth.prefill, if_pos hexcess]
      exact ⟨_, _, rfl, htop⟩
    · simp only [step, PagedGrowth.prefill, if_neg hexcess,
        h.backUntil_of_atTop htop (Nat.le_of_not_lt hexcess)]
      exact ⟨_, _, rfl, htop⟩
  | extend units =>
    cases hadvance : advance? state.growth.brk units state.growth.maxBytes with
    | none =>
      simp only [step, PagedGrowth.extend, hadvance]
      exact ⟨_, _, rfl, htop⟩
    | some target =>
      obtain ⟨-, htarget, -⟩ := advance?_eq_some hadvance
      simp only [step, PagedGrowth.extend, hadvance, h.backUntil_of_atTop htop htarget, pure_bind]
      exact ⟨_, _, rfl, htop⟩

/-- At the top no call writes anything, and the window stays at the top. -/
theorem run_of_atTop (h : state.growth.Inside) (htop : state.growth.AtTop)
    (calls : List WindowCall) :
    ∃ answers last, state.run calls = pure (answers, last) ∧ last.growth.AtTop := by
  induction calls generalizing state with
  | nil => exact ⟨[], state, rfl, htop⟩
  | cons call calls ih =>
    obtain ⟨answer, next, hstep, hnext⟩ := step_of_atTop h htop call
    obtain ⟨answers, last, hrun, hlast⟩ := ih (inside_step h (by rw [hstep]; rfl)) hnext
    refine ⟨answer :: answers, last, ?_, hlast⟩
    rw [run, hstep, pure_bind]
    simp only [hrun, pure_bind]

/-- Whatever the calls, a run that starts below the top is audible. -/
theorem audible_run [LegibleBacking β] (h : state.growth.Inside) (hbelow : ¬ state.growth.AtTop)
    (calls : List WindowCall) :
    (state.run calls).Audible fun result => result.2.growth.AtTop := by
  induction calls generalizing state with
  | nil => exact Traced.audible_pure hbelow
  | cons call calls ih =>
    refine Traced.Audible.bind (audible_step h hbelow call) ?_ ?_
    · rintro ⟨answer, next⟩ hstep hnext
      exact Traced.Audible.bind (ih (inside_step h hstep) hnext)
        (fun _ _ hvalue => Traced.audible_pure hvalue) fun _ _ htop => ⟨_, rfl, htop⟩
    · rintro ⟨answer, next⟩ hstep hnext
      obtain ⟨answers, last, hrun, hlast⟩ := run_of_atTop (inside_step h hstep) hnext calls
      refine ⟨(answer :: answers, last), ?_, hlast⟩
      simp only [hrun, pure_bind]

end WindowRun

/-! ## Noting calls changes nothing -/

/-- Whether a run has the outcome of another one, apart from what a function leaves out. -/
def Traced.Mirrors {α ρ : Type} (f : α → ρ) (run : Traced α) (other : Traced ρ) : Prop :=
  run.outcome.map f = other.outcome

namespace Traced.Mirrors

variable {α ρ α' ρ' : Type} {f : α → ρ} {g : α' → ρ'}

/-- Two runs in a row mirror two others if the first ones do and the second ones do. -/
theorem bind {run : Traced α} {other : Traced ρ} {rest : α → Traced α'} {rest' : ρ → Traced ρ'}
    (h : run.Mirrors f other) (hrest : ∀ value, (rest value).Mirrors g (rest' (f value))) :
    (run >>= rest).Mirrors g (other >>= rest') := by
  unfold Mirrors at *
  rw [Traced.outcome_bind, Traced.outcome_bind, ← h]
  cases run.outcome with
  | error fault => rfl
  | ok value => exact hrest value

/-- A step that both runs have in common. -/
theorem after {σ : Type} (first : Traced σ) {rest : σ → Traced α'} {rest' : σ → Traced ρ'}
    (h : ∀ value, (rest value).Mirrors g (rest' value)) :
    (first >>= rest).Mirrors g (first >>= rest') := by
  refine Mirrors.bind (f := id) ?_ h
  show first.outcome.map id = first.outcome
  cases first.outcome <;> rfl

/-- Loops mirror each other if their rounds do. -/
theorem loop {step : α → Traced (α ⊕ α')} {step' : ρ → Traced (ρ ⊕ ρ')}
    (h : ∀ state, (step state).Mirrors (Sum.map f g) (step' (f state))) (rounds : Nat) (state : α) :
    (Traced.loop step rounds state).Mirrors (Sum.map f g)
      (Traced.loop step' rounds (f state)) := by
  induction rounds generalizing state with
  | zero => rfl
  | succ rounds ih =>
    rw [Traced.loop_succ, Traced.loop_succ]
    refine (h state).bind fun result => ?_
    cases result with
    | inl next => exact ih next
    | inr answer => rfl

/-- Folds mirror each other if their steps do. -/
theorem foldl {σ : Type} {step : α → σ → Traced α} {step' : ρ → σ → Traced ρ}
    (h : ∀ state x, (step state x).Mirrors f (step' (f state) x)) (state : α) (xs : List σ) :
    (Traced.foldl step state xs).Mirrors f (Traced.foldl step' (f state) xs) := by
  induction xs generalizing state with
  | nil => rfl
  | cons x rest ih =>
    rw [Traced.foldl_cons, Traced.foldl_cons]
    exact (h state x).bind ih

end Traced.Mirrors

namespace Noted

open PagedGrowth

/-- A state without its notes. -/
def bare (state : WindowRun (Noted β)) : WindowRun β := ⟨state.growth, state.pages.pages⟩

/-- A call that is noted does what it does otherwise. -/
theorem mirrors_noting {α ρ : Type} {f : α → ρ} {text : Unit → Except Fault String}
    {outcome : Except Fault ρ} {rest : ρ → Traced α} (h : ∀ value, (rest value).outcome.map f =
      .ok value) {run : Traced ρ} (hrun : run.outcome = outcome) :
    (do
      Traced.report .error text
      let value ← (liftM outcome : Traced ρ)
      rest value).Mirrors f run := by
  unfold Traced.Mirrors
  simp only [Traced.outcome_bind, Traced.outcome_report, Traced.outcome_liftM, Outcome.ok_bind,
    hrun]
  cases outcome with
  | error fault => rfl
  | ok value => exact h value

/-- A noted backing backs a page as it does without the note. -/
theorem mirrors_back (addr : VirtAddr) (noted : Noted β) :
    (PageBacking.back addr noted).Mirrors (fun result => (result.1, result.2.pages))
      (PageBacking.back addr noted.pages) :=
  mirrors_noting (fun _ => rfl) rfl

/-- A noted backing releases a page as it does without the note. -/
theorem mirrors_release (addr : VirtAddr) (noted : Noted β) :
    (PageBacking.release addr noted).Mirrors Noted.pages (PageBacking.release addr noted.pages) :=
  mirrors_noting (fun _ => rfl) rfl

/-- How far the backing of pages has come, without the notes. -/
def bareProgress (progress : Progress (Noted β)) : Progress β :=
  ⟨progress.offset, progress.pages.pages⟩

/-- Over a noted backing the next page of a window is backed as without the notes. -/
theorem mirrors_backNext (growth : PagedGrowth) (progress : Progress (Noted β)) :
    (backNext growth progress).Mirrors (Sum.map bareProgress (Prod.map id bareProgress))
      (backNext growth (bareProgress progress)) := by
  refine .after _ fun addr => (mirrors_back addr progress.pages).bind fun result => ?_
  obtain ⟨answer, noted⟩ := result
  cases answer <;> rfl

/-- Over a noted backing pages of a window are released as without the notes. -/
theorem mirrors_releaseRange (growth : PagedGrowth) (first stop : Nat) (noted : Noted β) :
    (releaseRange growth first stop noted).Mirrors Noted.pages
      (releaseRange growth first stop noted.pages) := by
  refine Traced.Mirrors.foldl (fun noted index => ?_) noted _
  exact .after _ fun addr => mirrors_release addr noted

/-- What a window leaves behind, without the notes. -/
def bareResult {α : Type} (result : α × PagedGrowth × Noted β) : α × PagedGrowth × β :=
  (result.1, result.2.1, result.2.2.pages)

/-- Over a noted backing a window is backed up to a bound as without the notes. -/
theorem mirrors_backUntil (bytes : Nat) (growth : PagedGrowth) (noted : Noted β) :
    (backUntil bytes growth noted).Mirrors bareResult (backUntil bytes growth noted.pages) := by
  unfold backUntil
  generalize (bytes + (pageBytes - 1)) / pageBytes * pageBytes = stop
  have hloop := Traced.Mirrors.loop (mirrors_backNext growth)
    ((stop - growth.mapped) / pageBytes) ⟨growth.mapped, noted⟩
  refine hloop.bind fun result => ?_
  cases result with
  | inl progress =>
    simp only [Sum.map_inl]
    split_ifs with hmore
    · exact .after _ fun _ => rfl
    · rfl
  | inr refusal =>
    obtain ⟨cause, progress⟩ := refusal
    refine .after _ fun _ => ?_
    exact (mirrors_releaseRange growth _ _ progress.pages).bind fun noted => rfl

/-- Over a noted backing pages are backed beforehand as without the notes. -/
theorem mirrors_prefill (bytes : Nat) (growth : PagedGrowth) (noted : Noted β) :
    (prefill bytes growth noted).Mirrors bareResult (prefill bytes growth noted.pages) := by
  unfold prefill
  split_ifs
  · rfl
  · exact mirrors_backUntil bytes growth noted

/-- Over a noted backing a window is extended as without the notes. -/
theorem mirrors_extend (units : Nat) (growth : PagedGrowth) (noted : Noted β) :
    (extend units growth noted).Mirrors bareResult (extend units growth noted.pages) := by
  unfold extend
  cases advance? growth.brk units growth.maxBytes with
  | none => rfl
  | some target =>
    refine (mirrors_backUntil target growth noted).bind fun result => ?_
    obtain ⟨answer, growth, noted⟩ := result
    cases answer <;> rfl

/-- Over a noted backing every call of a window is answered as without the notes. -/
theorem mirrors_step (state : WindowRun (Noted β)) (call : WindowCall) :
    (state.step call).Mirrors (Prod.map id bare) ((bare state).step call) := by
  cases call with
  | prefill bytes => exact (mirrors_prefill bytes state.growth state.pages).bind fun _ => rfl
  | extend units => exact (mirrors_extend units state.growth state.pages).bind fun _ => rfl

/-- Noting the calls of the backing changes no answer and nothing that is left behind. -/
theorem mirrors_run (state : WindowRun (Noted β)) (calls : List WindowCall) :
    (state.run calls).Mirrors (Prod.map id bare) ((bare state).run calls) := by
  induction calls generalizing state with
  | nil => rfl
  | cons call calls ih =>
    refine (mirrors_step state call).bind fun result => ?_
    exact (ih result.2).bind fun last => rfl

end Noted

namespace WindowRun

open PagedGrowth

/-- Whether a run has come to the end of the address space. -/
def ReachesTop (outcome : Except Fault (List WindowAnswer × WindowRun β)) : Prop :=
  ∃ answers last, outcome = .ok (answers, last) ∧ last.growth.AtTop

/-- A window that reaches no further than the address space is asked for pages, over any backing and
with any calls. Who listens up to a level has the same pages backed and released, in the same order
and with the same answers of the backing, as somebody who hears only the notes of these calls. The
outcome is the same too, with one exception: if debug messages are heard and the run comes to the
end of the address space, it ends there with an overflow. Otherwise it would have gone on: somebody
who does not listen has the outcome of the run without notes. -/
theorem listening_stops_at_the_top (note : BackingCall → String) (window : Nat) {first : VirtAddr}
    {maxBytes : Nat} (hfits : first.toNat + maxBytes ≤ 2 ^ 32) (hword : maxBytes < 2 ^ 32)
    (pages : β) (calls : List WindowCall) (limit : Level) :
    let run := (start window first maxBytes (⟨pages, note⟩ : Noted β)).run calls
    run.outcome.map (Prod.map id Noted.bare) =
        ((start window first maxBytes pages).run calls).outcome ∧
      (run.observe none).2 = run.outcome ∧ (run.observe (some .error)).2 = run.outcome ∧
      (run.observe (some limit)).1.filter (·.1 = .error) = (run.observe (some .error)).1 ∧
      (¬(Level.debug.heard (some limit) = true ∧ ReachesTop run.outcome) →
        (run.observe (some limit)).2 = run.outcome) ∧
      (Level.debug.heard (some limit) = true → ReachesTop run.outcome →
        (run.observe (some limit)).2 = .error .overflow) := by
  intro run
  have hdown : roundDown maxBytes pageBytes ≤ maxBytes := Nat.div_mul_le_self _ _
  have hinside : (start window first maxBytes (⟨pages, note⟩ : Noted β)).growth.Inside :=
    ⟨inOrder_ofWindow window first (by omega), Nat.le_trans (Nat.add_le_add_left hdown _) hfits,
      Nat.lt_of_le_of_lt hdown hword⟩
  have hbelow : ¬ (start window first maxBytes (⟨pages, note⟩ : Noted β)).growth.AtTop := by
    show ¬first.toNat + 0 = 2 ^ 32
    have := first.isLt
    omega
  refine ⟨Noted.mirrors_run _ calls, by rw [Traced.observe_none], ?_⟩
  rcases audible_run hinside hbelow calls with
    ⟨hlegible, hnot⟩ | ⟨hbreaks, ⟨answers, last⟩, hlast, htop⟩
  · refine ⟨Traced.observe_of_legible hlegible _, ?_, fun _ => Traced.observe_of_legible hlegible _,
      ?_⟩
    · rw [Traced.lines_observe_of_legible hlegible, Traced.lines_observe_of_legible hlegible,
        Record.filter_lines]
    · rintro - ⟨answers, last, hlast, htop⟩
      exact absurd htop (hnot _ hlast)
  · refine ⟨Traced.observe_of_breaksOff hbreaks _, ?_, fun hunheard => ?_, fun hheard _ => ?_⟩
    · rw [Traced.lines_observe_of_breaksOff hbreaks, Traced.lines_observe_of_breaksOff hbreaks,
        Record.filter_lines]
    · rw [Traced.observe_of_breaksOff hbreaks,
        if_neg fun hheard => hunheard ⟨hheard, answers, last, hlast, htop⟩]
    · rw [Traced.observe_of_breaksOff hbreaks, if_pos hheard]

/-- The last two pages of the address space as a window. The first can be backed whoever listens,
and backing the second is the end for those who hear the debug message, although both pages are
backed for them as for everybody else. -/
theorem listening_stops_at_the_top_second_page :
    let note : BackingCall → String := fun call =>
      if call = .back (.ofNat 0xFFFFF000) then "the last page" else "another page"
    let run := (start 0 (.ofNat 0xFFFFE000) 0x2000 (⟨⟨#[], none, none⟩, note⟩ :
      Noted PageLedger)).run [.extend 1, .extend 1]
    run.outcome.map (·.1) = .ok [.extended (.ok 256), .extended (.ok 256)] ∧
      (run.observe (some .warn)).2 = run.outcome ∧
      (run.observe (some .debug)).2 = .error .overflow ∧
      (run.observe (some .debug)).1.filter (·.1 = .error) =
        [(.error, "another page"), (.error, "the last page")] := by
  intro note run
  have hfits : (VirtAddr.ofNat 0xFFFFE000).toNat + 0x2000 ≤ 2 ^ 32 := by decide
  have hrun : run.outcome.map (fun result =>
      (result.1, decide (result.2.growth.start.toNat + result.2.growth.mapped = 2 ^ 32))) =
      .ok ([.extended (.ok 256), .extended (.ok 256)], true) := by
    decide +kernel
  have hlines : (run.observe (some .error)).1 =
      [(.error, "another page"), (.error, "the last page")] := by
    decide +kernel
  obtain ⟨-, -, -, -, hwarn, -⟩ := listening_stops_at_the_top note 0 hfits (by decide)
    (⟨#[], none, none⟩ : PageLedger) [.extend 1, .extend 1] .warn
  obtain ⟨-, -, -, hsame, -, hdebug⟩ := listening_stops_at_the_top note 0 hfits (by decide)
    (⟨#[], none, none⟩ : PageLedger) [.extend 1, .extend 1] .debug
  have hquiet := hwarn fun h => by cases h.1
  cases houtcome : run.outcome with
  | error fault =>
    rw [houtcome] at hrun
    cases hrun
  | ok result =>
    rw [houtcome, Outcome.map_ok, Except.ok.injEq, Prod.mk.injEq, decide_eq_true_eq] at hrun
    obtain ⟨hanswers, htop⟩ := hrun
    refine ⟨?_, hquiet.trans houtcome, hdebug rfl ⟨_, _, houtcome, htop⟩, hsame.trans hlines⟩
    rw [Outcome.map_ok, hanswers]

/-- The last page of the address space as a window of its own. Backing it goes through for everybody
but those who hear the debug message. -/
theorem last_page_stops_the_listener :
    let first : VirtAddr := .ofNat 0xFFFFF000
    let run := (start 0 first 0x1000 (⟨#[], none, none⟩ : PageLedger)).run [.extend 1]
    first.isAligned .small = true ∧ first.toNat + 0x1000 ≤ 2 ^ 32 ∧
      (run.observe none).2.map (·.1) = .ok [.extended (.ok 256)] ∧
      (run.observe (some .debug)).2.map (·.1) = .error .overflow := by
  decide +kernel

end WindowRun

end BootMemory
