import BootMemory.Boot.HeapLayout
import BootMemory.Heap.PageLedger
import BootMemory.Proofs.CommandLine.Size
import BootMemory.Proofs.Heap.Growth
import BootMemory.Proofs.Journal

/-!
# What the size argument does

The command line may say how much of the kernel heap is mapped while the system starts. If it says a
size, the layout has that size, or the one of its window if that is less (`HeapLayout.resized`); all
else stays as it is. The sizes are those of the grammar and those with a plus sign in them
(`HeapLayout.withArguments_reads_grammar`).

The window is cut to whole pages only later, where the heap is made. So a window that ends within a
page holds less than the layout was cut to, and a size above its whole pages exhausts it before a
page is backed (`HeapLayout.oversized_exhausts_iff`).
-/

set_option autoImplicit false

namespace BootMemory

namespace HeapLayout

variable {layout : HeapLayout} {args : Arguments} {text : String}

/-- The layout with the size that was asked for, cut to its window. -/
def resized (layout : HeapLayout) : Option Nat → HeapLayout
  | none => layout
  | some bytes => { layout with initialBytes := min bytes layout.maxBytes }

/-- A size from the command line does not move the heap. -/
@[simp] theorem resized_base (layout : HeapLayout) (asked : Option Nat) :
    (layout.resized asked).base = layout.base := by cases asked <;> rfl

/-- A size from the command line does not change the heap's upper bound. -/
@[simp] theorem resized_maxBytes (layout : HeapLayout) (asked : Option Nat) :
    (layout.resized asked).maxBytes = layout.maxBytes := by cases asked <;> rfl

/-- The size that a command line asks for, if it asks for one. -/
def asked? (args : Arguments) : Option Nat := (args.get? sizeKey).bind Size.ofString?

/-- The command line gives the layout the size that it asks for, whoever hears what it says. -/
theorem withArguments_resized (layout : HeapLayout) (args : Arguments) :
    (layout.withArguments args).HasValue (layout.resized (asked? args)) := by
  unfold withArguments asked?
  cases args.get? sizeKey with
  | none => exact (Traced.legible_pure _).hasValue rfl
  | some text =>
    simp only [Option.bind_some]
    cases Size.ofString? text with
    | none =>
      refine Traced.Legible.hasValue ?_ rfl
      exact Traced.legible_bind (Traced.legible_report rfl) fun _ => Traced.legible_pure _
    | some bytes =>
      simp only
      split_ifs
      · refine Traced.Legible.hasValue ?_ rfl
        exact Traced.legible_bind (Traced.legible_report rfl) fun _ => Traced.legible_pure _
      · exact (Traced.legible_pure _).hasValue rfl

/-! ## The texts that are taken -/

/-- Whatever the size argument says, the layout is resized to the size that the text is in the
grammar, and to the size that it is with a plus sign before its digits, which the grammar does not
have. By every other text the layout stays as it is. No text is cut inside a letter. -/
theorem withArguments_reads_grammar (layout : HeapLayout) (h : args.get? sizeKey = some text) :
    ∃ chosen, (layout.withArguments args).HasValue chosen ∧
      Size.Checked.ofString? text = .ok (Size.ofString? text) ∧
      (∀ bytes, Size.Denotes [] text bytes →
        chosen = { layout with initialBytes := min bytes layout.maxBytes }) ∧
      (∀ bytes, Size.Denotes ['+'] text bytes →
        chosen = { layout with initialBytes := min bytes layout.maxBytes } ∧
          ∀ other, ¬ Size.Denotes [] text other) ∧
      ((∀ bytes, ¬ Size.Denotes [] text bytes ∧ ¬ Size.Denotes ['+'] text bytes) →
        chosen = layout) := by
  have hasked : asked? args = Size.ofString? text := by rw [asked?, h, Option.bind_some]
  refine ⟨_, layout.withArguments_resized args, Size.Checked.ofString?_eq text, ?_, ?_, ?_⟩
  · intro bytes hdenotes
    rw [hasked, Size.ofString?_eq_some_iff.mpr (.inl hdenotes), resized]
  · intro bytes hdenotes
    rw [hasked, Size.ofString?_eq_some_iff.mpr (.inr hdenotes), resized]
    exact ⟨rfl, hdenotes.not_plain⟩
  · intro hnone
    have hread : Size.ofString? text = none := by
      apply Option.eq_none_iff_forall_ne_some.mpr
      intro bytes hsome
      rcases Size.ofString?_eq_some_iff.mp hsome with hplain | hplus
      · exact (hnone bytes).1 hplain
      · exact (hnone bytes).2 hplus
    rw [hasked, hread, resized]

/-- With a plus sign allowed, the text denotes sixteen. -/
theorem denotes_plus_ten : Size.Denotes ['+'] "0x+10" 16 := by
  have hdigits : List.Forall₂ (Size.IsDigit 16) [1, 0] ['1', '0'] :=
    .cons ⟨by decide, .inl rfl⟩ (.cons ⟨by decide, .inl rfl⟩ .nil)
  exact ⟨16, ['0', 'x'], ['1', '0'], 16, 1, [], .lower, ⟨[1, 0], by decide, hdigits, rfl⟩, .none,
    by decide, rfl, by decide⟩

/-- The text `0x+10` is taken for sixteen bytes. -/
theorem withArguments_reads_grammar_plus :
    let args : Arguments := ⟨[("heap_size", "0x+10")]⟩
    args.get? sizeKey = some "0x+10" ∧
      (standard.withArguments args).HasValue { standard with initialBytes := 16 } := by
  intro args
  obtain ⟨chosen, hchosen, -, -, hplus, -⟩ :=
    @withArguments_reads_grammar args "0x+10" standard rfl
  obtain ⟨rfl, -⟩ := hplus 16 denotes_plus_ten
  exact ⟨rfl, hchosen⟩

/-- So the grammar alone does not say what is taken. -/
theorem plus_sign_is_taken :
    ¬ ∀ (layout : HeapLayout) (args : Arguments) (text : String), args.get? sizeKey = some text →
      ∃ chosen, (layout.withArguments args).HasValue chosen ∧
        (∀ bytes, Size.Denotes [] text bytes →
          chosen = { layout with initialBytes := min bytes layout.maxBytes }) ∧
        ((∀ bytes, ¬ Size.Denotes [] text bytes) → chosen = layout) := by
  intro hall
  obtain ⟨chosen, hchosen, -, hkept⟩ := hall standard ⟨[("heap_size", "0x+10")]⟩ "0x+10" rfl
  rw [hkept denotes_plus_ten.not_plain] at hchosen
  have hresized := (standard.withArguments_resized ⟨[("heap_size", "0x+10")]⟩).outcome
  rw [hchosen.outcome] at hresized
  have hbytes := congrArg HeapLayout.initialBytes (Except.ok.inj hresized)
  revert hbytes
  decide

/-! ## The window that is left -/

/-- Whether the window ends within a page and the command line asks for more than its whole pages.
-/
def Oversized (layout : HeapLayout) (args : Arguments) : Prop :=
  ¬ pageBytes ∣ layout.maxBytes ∧
    ∃ bytes, asked? args = some bytes ∧ roundDown layout.maxBytes pageBytes < bytes

/-- Only then the layout does not fit the whole pages of its window, if it did before. -/
theorem oversized_iff (h : layout.initialBytes ≤ roundDown layout.maxBytes pageBytes) :
    Oversized layout args ↔
      roundDown layout.maxBytes pageBytes < (layout.resized (asked? args)).initialBytes := by
  have hwhole : pageBytes ∣ layout.maxBytes ↔
      roundDown layout.maxBytes pageBytes = layout.maxBytes := Nat.dvd_iff_div_mul_eq _ _
  have hle := roundDown_le layout.maxBytes pageBytes
  unfold Oversized
  cases asked? args with
  | none => exact iff_of_false nofun (Nat.not_lt.mpr h)
  | some bytes =>
    simp only [Option.some.injEq, exists_eq_left', resized, hwhole, lt_min_iff]
    omega

end HeapLayout

namespace PagedGrowth

variable {β : Type} [PageBacking β] {growth other : PagedGrowth} {pages pages' : β} {bytes : Nat}

/-- A window is exhausted by more bytes than it has, before a page is backed. -/
theorem prefill_hasValue_exhausted (h : growth.maxBytes < bytes) (pages : β) :
    (prefill bytes growth pages).HasValue (.error .exhausted, growth, pages) := by
  rw [prefill, if_pos h]
  exact (Traced.legible_pure _).hasValue rfl

/-- By nothing else: a page that cannot be backed is another error. -/
theorem lt_of_prefill_exhausted
    (h : (prefill bytes growth pages).outcome = .ok (.error .exhausted, other, pages')) :
    growth.maxBytes < bytes := by
  by_contra hfits
  rw [prefill, if_neg hfits] at h
  rcases backUntil_ok h with ⟨_, hcause, -⟩ | ⟨hdone, -⟩
  · cases hcause
  · cases hdone

end PagedGrowth

namespace HeapLayout

open PagedGrowth

/-- For every layout that fits the whole pages of its window and every command line: the layout that
is chosen has the same window, and prefilling the window with the size that was chosen exhausts it
exactly if the window ends within a page and the command line asks for more than its whole pages.
Then no page is backed, whoever listens. -/
theorem oversized_exhausts_iff (layout : HeapLayout) (args : Arguments)
    (h : layout.initialBytes ≤ roundDown layout.maxBytes pageBytes) :
    ∃ chosen, (layout.withArguments args).HasValue chosen ∧ chosen.base = layout.base ∧
      chosen.maxBytes = layout.maxBytes ∧
      ∀ {β : Type} [PageBacking β] (window : Nat) (pages : β),
        let growth := PagedGrowth.ofWindow window chosen.base chosen.maxBytes
        (Oversized layout args →
          (growth.prefill chosen.initialBytes pages).HasValue (.error .exhausted, growth, pages)) ∧
        (¬ Oversized layout args → ∀ other pages',
          (growth.prefill chosen.initialBytes pages).outcome ≠
            .ok (.error .exhausted, other, pages')) := by
  refine ⟨_, layout.withArguments_resized args, layout.resized_base _, layout.resized_maxBytes _,
    ?_⟩
  intro β _ window pages growth
  have hmax : growth.maxBytes = roundDown layout.maxBytes pageBytes := by
    show roundDown (layout.resized (asked? args)).maxBytes pageBytes = _
    rw [resized_maxBytes]
  rw [oversized_iff h, ← hmax]
  exact ⟨fun hlarge => prefill_hasValue_exhausted hlarge pages,
    fun hfits other pages' houtcome => hfits (lt_of_prefill_exhausted houtcome)⟩

/-- A window of a page and a half holds one page, but a size of 64K is cut to six KiB and exhausts
it. The same size fits the standard window. -/
theorem oversized_exhausts_iff_page_and_a_half :
    let layout : HeapLayout := ⟨⟨0xD0000000, by decide⟩, 0x1000, 0x1800⟩
    let args : Arguments := ⟨[("heap_size", "64K")]⟩
    let pages : PageLedger := ⟨#[], none, none⟩
    layout.initialBytes ≤ roundDown layout.maxBytes pageBytes ∧
      (∃ chosen, (layout.withArguments args).HasValue chosen ∧
        let growth := ofWindow 0 chosen.base chosen.maxBytes
        (growth.prefill chosen.initialBytes pages).HasValue (.error .exhausted, growth, pages)) ∧
      ∃ chosen, (standard.withArguments args).HasValue chosen ∧
        let growth := ofWindow 0 chosen.base chosen.maxBytes
        ∀ other pages', (growth.prefill chosen.initialBytes pages).outcome ≠
          .ok (.error .exhausted, other, pages') := by
  intro layout args pages
  have hfits : layout.initialBytes ≤ roundDown layout.maxBytes pageBytes := by decide
  have hover : Oversized layout args := ⟨by decide, 65536, by decide, by decide⟩
  have hwhole : ¬ Oversized standard args := fun h => h.1 (by decide)
  obtain ⟨chosen, hchosen, -, -, hprefill⟩ := oversized_exhausts_iff layout args hfits
  obtain ⟨other, hother, -, -, hprefill'⟩ := oversized_exhausts_iff standard args (by decide)
  exact ⟨hfits, ⟨chosen, hchosen, (hprefill 0 pages).1 hover⟩, other, hother,
    (hprefill' 0 pages).2 hwhole⟩

/-- So a size that is cut to its window may still be too large for it. -/
theorem cut_size_exhausts :
    ¬ ∀ (layout : HeapLayout) (args : Arguments),
      layout.initialBytes ≤ roundDown layout.maxBytes pageBytes →
      ∃ chosen, (layout.withArguments args).HasValue chosen ∧ chosen.base = layout.base ∧
        chosen.maxBytes = layout.maxBytes ∧
        ∀ {β : Type} [PageBacking β] (window : Nat) (pages : β) (other : PagedGrowth) (pages' : β),
          let growth := PagedGrowth.ofWindow window chosen.base chosen.maxBytes
          (growth.prefill chosen.initialBytes pages).outcome ≠
            .ok (.error .exhausted, other, pages') := by
  intro hall
  obtain ⟨chosen, hchosen, -, -, hnever⟩ :=
    hall ⟨⟨0xD0000000, by decide⟩, 0x1000, 0x1800⟩ ⟨[("heap_size", "64K")]⟩ (by decide)
  have hasked : asked? ⟨[("heap_size", "64K")]⟩ = some 65536 := by decide
  have hresized := (withArguments_resized ⟨⟨0xD0000000, by decide⟩, 0x1000, 0x1800⟩
    ⟨[("heap_size", "64K")]⟩).outcome
  rw [hasked, hchosen.outcome, Except.ok.injEq] at hresized
  have hlarge : (ofWindow 0 chosen.base chosen.maxBytes).maxBytes < chosen.initialBytes := by
    rw [hresized]
    decide
  have hprefill := prefill_hasValue_exhausted hlarge (⟨#[], none, none⟩ : PageLedger)
  exact hnever 0 _ _ _ hprefill.outcome

end HeapLayout

end BootMemory
