import BootMemory.Heap.PageLedger
import BootMemory.Proofs.Heap.Growth
import Mathlib.Data.Multiset.AddSub

/-!
# A window and the pages behind it

An arena that grows by pages has two bounds that move at different times, and pages behind it that
can be refused at any time. What keeps them together is that of the window exactly the pages below
the backed bytes are backed, each of them once (`WindowRun.Kept`). Backing goes from the first page
that is missing upwards, so when a page is refused, the pages of the same step are those from there
on, and releasing them leaves what was backed before.

Nothing is known about the backing but this: a page that is not backed gets backed or is refused,
and a page that is backed can be released (`KeepsPages`).
-/

set_option autoImplicit false

namespace BootMemory

variable {β : Type} [PageBacking β]

/-! ## Calls of a window -/

/-- A call that makes a window grow. -/
inductive WindowCall where
  | prefill (bytes : Nat)
  | extend (units : Nat)
  deriving DecidableEq

/-- The answer to a call. -/
inductive WindowAnswer where
  | prefilled (answer : Except GrowthError Unit)
  | extended (answer : Except GrowthError Nat)
  deriving DecidableEq

/-- The bounds of a window, and what its pages come from. -/
structure WindowRun (β : Type) where
  growth : PagedGrowth
  pages : β

namespace WindowRun

/-- A window without pages. -/
def start (window : Nat) (first : VirtAddr) (maxBytes : Nat) (pages : β) : WindowRun β :=
  ⟨.ofWindow window first maxBytes, pages⟩

/-- The answer to a call, and what it leaves behind. -/
def step (run : WindowRun β) : WindowCall → Traced (WindowAnswer × WindowRun β)
  | .prefill bytes => do
    let (answer, growth, pages) ← run.growth.prefill bytes run.pages
    return (.prefilled answer, ⟨growth, pages⟩)
  | .extend units => do
    let (answer, growth, pages) ← run.growth.extend units run.pages
    return (.extended answer, ⟨growth, pages⟩)

/-- The answers to calls, and what they leave behind. -/
def run (state : WindowRun β) : List WindowCall → Traced (List WindowAnswer × WindowRun β)
  | [] => return ([], state)
  | call :: calls => do
    let (answer, state) ← state.step call
    let (answers, state) ← run state calls
    return (answer :: answers, state)

end WindowRun

/-! ## What a backing keeps -/

/-- A backing keeps count of the pages that are backed. A page that is not backed gets backed, or is
refused and nothing changes. A page that is backed once can be released. -/
structure KeepsPages (Holds : β → Multiset VirtAddr → Prop) : Prop where
  back : ∀ {pages : β} {held : Multiset VirtAddr} {addr : VirtAddr}, Holds pages held →
    addr ∉ held → ∃ answer next, (PageBacking.back addr pages).outcome = .ok (answer, next) ∧
      match answer with
      | .ok () => Holds next (addr ::ₘ held)
      | .error _ => Holds next held
  release : ∀ {pages : β} {held : Multiset VirtAddr} {addr : VirtAddr},
    Holds pages (addr ::ₘ held) → addr ∉ held →
      ∃ next, (PageBacking.release addr pages).outcome = .ok next ∧ Holds next held

/-- The pages that a ledger has on its list. -/
def PageLedger.Holds (ledger : PageLedger) (held : Multiset VirtAddr) : Prop :=
  (ledger.live.toList : Multiset VirtAddr) = held

/-- A ledger keeps count, whatever it is told to refuse. -/
theorem PageLedger.keepsPages : KeepsPages PageLedger.Holds where
  back := by
    rintro ledger _ addr rfl -
    refine ⟨(ledger.back addr).1, (ledger.back addr).2, rfl, ?_⟩
    unfold PageLedger.back
    simp only
    by_cases hfull : ledger.budget.any (· ≤ ledger.live.size) = true
    · rw [if_pos hfull]
      rfl
    · rw [if_neg hfull]
      cases ledger.refused.filter (·.1 = addr) with
      | some refusal => rfl
      | none =>
        show ((ledger.live.push addr).toList : Multiset VirtAddr) = addr ::ₘ ledger.live.toList
        rw [Array.toList_push, Multiset.cons_coe, Multiset.coe_eq_coe]
        exact List.perm_append_singleton addr _
  release := by
    rintro ledger held addr hholds hnew
    refine ⟨ledger.release addr, rfl, ?_⟩
    -- The list is some order of the page and the other pages, and only the page is struck out.
    obtain ⟨others, rfl⟩ : ∃ others : List VirtAddr, (others : Multiset VirtAddr) = held :=
      Quot.exists_rep held
    have hperm : ledger.live.toList.Perm (addr :: others) := Multiset.coe_eq_coe.mp hholds
    show ((ledger.live.filter (· != addr)).toList : Multiset VirtAddr) = others
    rw [Array.toList_filter, Multiset.coe_eq_coe]
    refine (hperm.filter _).trans ?_
    rw [List.filter_cons_of_neg (by simp), List.filter_eq_self.mpr]
    intro other hother
    rw [bne_iff_ne]
    rintro rfl
    exact hnew (Multiset.mem_coe.mpr hother)

namespace PagedGrowth

variable {growth other : PagedGrowth} {start : VirtAddr} {first count index : Nat} {pages next : β}
  {bytes : Nat}

/-! ## The pages of a window -/

/-- The page of a window that has so many pages in front of it. -/
def pageNumber (start : VirtAddr) (index : Nat) : VirtAddr :=
  .ofNat (start.toNat + index * pageBytes)

/-- A page in front of another bound starts below it. -/
theorem pageNumber_fits (hlast : start.toNat + count * pageBytes ≤ 2 ^ 32) (hlt : index < count) :
    start.toNat + index * pageBytes < 2 ^ 32 := by
  refine Nat.lt_of_lt_of_le (Nat.add_lt_add_left ?_ _) hlast
  exact Nat.mul_lt_mul_of_pos_right hlt (by decide)

/-- A page below the end of the address space has its address without wrapping. -/
theorem toNat_pageNumber (hfits : start.toNat + index * pageBytes < 2 ^ 32) :
    (pageNumber start index).toNat = start.toNat + index * pageBytes := by
  rw [pageNumber, VirtAddr.toNat_ofNat, Nat.mod_eq_of_lt hfits]

/-- So many pages of a window, from a number on. -/
def windowPages (start : VirtAddr) (first count : Nat) : Multiset VirtAddr :=
  ((List.range' first count).map (pageNumber start) : List VirtAddr)

/-- An offset below the end of the address space has its address. -/
theorem pageAt_of_lt {offset : Nat} (hfits : growth.start.toNat + offset < 2 ^ 32) :
    growth.pageAt offset = .ok ⟨growth.start.toNat + offset, hfits⟩ := by
  have hoffset : offset % 2 ^ 32 = offset :=
    Nat.mod_eq_of_lt (Nat.lt_of_le_of_lt (Nat.le_add_left _ _) hfits)
  rw [pageAt, hoffset, VirtAddr.add, VirtAddr.add?, dif_pos hfits]

/-- The offset of a page below the end of the address space has the address of the page. -/
theorem pageAt_eq (hfits : growth.start.toNat + index * pageBytes < 2 ^ 32) :
    growth.pageAt (index * pageBytes) = .ok (pageNumber growth.start index) := by
  rw [pageAt_of_lt hfits, Except.ok.injEq]
  exact VirtAddr.ext (toNat_pageNumber hfits).symm

/-- The pages of a window that reaches no further than the address space are different. -/
theorem mem_windowPages (hlast : start.toNat + (first + count) * pageBytes ≤ 2 ^ 32)
    (hfits : start.toNat + index * pageBytes < 2 ^ 32) :
    pageNumber start index ∈ windowPages start first count ↔
      first ≤ index ∧ index < first + count := by
  unfold windowPages
  rw [Multiset.mem_coe, List.mem_map]
  constructor
  · rintro ⟨place, hm, heq⟩
    rw [List.mem_range'_1] at hm
    have hplace := pageNumber_fits hlast hm.2
    rw [VirtAddr.ext_iff, toNat_pageNumber hfits, toNat_pageNumber hplace,
      show pageBytes = 4096 from rfl] at heq
    omega
  · exact fun hbetween => ⟨index, List.mem_range'_1.mpr hbetween, rfl⟩

/-- A run of no pages is empty. -/
theorem windowPages_zero (start : VirtAddr) (first : Nat) : windowPages start first 0 = 0 := rfl

/-- One more page at the end. -/
theorem windowPages_succ (start : VirtAddr) (first count : Nat) :
    windowPages start first (count + 1) =
      pageNumber start (first + count) ::ₘ windowPages start first count := by
  unfold windowPages
  rw [List.range'_1_concat, List.map_append, Multiset.cons_coe, Multiset.coe_eq_coe]
  exact List.perm_append_singleton _ _

/-- One more page in front. -/
theorem windowPages_cons (start : VirtAddr) (first count : Nat) :
    windowPages start first (count + 1) =
      pageNumber start first ::ₘ windowPages start (first + 1) count := rfl

/-- Pages behind pages. -/
theorem windowPages_add (start : VirtAddr) (count more : Nat) :
    windowPages start 0 (count + more) =
      windowPages start count more + windowPages start 0 count := by
  unfold windowPages
  rw [Multiset.coe_add, ← List.map_append, Multiset.coe_eq_coe]
  refine List.Perm.map _ ?_
  rw [← List.range'_append_1, Nat.zero_add]
  exact List.perm_append_comm

/-! ## Backing and releasing -/

/-- Where backing pages stops: behind all of them, or at the page that was refused. -/
theorem loop_offset {rounds : Nat} {progress : Progress β}
    {result : Progress β ⊕ (MappingError × Progress β)}
    (hloop : (Traced.loop (backNext growth) rounds progress).outcome = .ok result) :
    (∃ last, result = .inl last ∧ last.offset = progress.offset + rounds * pageBytes) ∨
      ∃ cause last done, result = .inr (cause, last) ∧ done < rounds ∧
        last.offset = progress.offset + done * pageBytes := by
  induction rounds generalizing progress with
  | zero =>
    cases hloop
    exact .inl ⟨progress, rfl, by rw [Nat.zero_mul, Nat.add_zero]⟩
  | succ rounds ih =>
    rw [Traced.loop_succ, Traced.outcome_bind, Outcome.bind_eq_ok] at hloop
    obtain ⟨step, hstep, hloop⟩ := hloop
    unfold backNext at hstep
    simp only [Traced.outcome_bind, Outcome.bind_eq_ok] at hstep
    obtain ⟨addr, -, ⟨answer, next⟩, -, hstep⟩ := hstep
    cases answer with
    | error cause =>
      cases hstep
      cases hloop
      exact .inr ⟨cause, _, 0, rfl, Nat.succ_pos _, by rw [Nat.zero_mul, Nat.add_zero]⟩
    | ok _ =>
      cases hstep
      have hmore : ∀ done, progress.offset + pageBytes + done * pageBytes =
          progress.offset + (done + 1) * pageBytes := by
        intro done
        rw [Nat.succ_mul, Nat.add_assoc, Nat.add_comm pageBytes]
      rcases ih hloop with ⟨last, rfl, hoffset⟩ | ⟨cause, last, done, rfl, hlt, hoffset⟩
      · exact .inl ⟨last, rfl, hoffset.trans (hmore rounds)⟩
      · exact .inr ⟨cause, last, done + 1, rfl, Nat.succ_lt_succ hlt, hoffset.trans (hmore done)⟩

/-- When pages were backed, all that were asked for are there. -/
theorem le_mapped_of_backUntil (hb : (backUntil bytes growth pages).outcome =
    .ok (.ok (), other, next)) : bytes ≤ other.mapped := by
  rcases backUntil_ok hb with ⟨cause, hcause, -⟩ | ⟨-, rfl⟩
  · cases hcause
  · refine Nat.le_trans ?_ (Nat.le_max_right _ _)
    rw [show pageBytes = 4096 from rfl]
    omega

section Keeps

variable {Holds : β → Multiset VirtAddr → Prop} {held : Multiset VirtAddr}

/-- Pages that are backed one after the other are backed as far as the work has come. -/
theorem loop_holds (laws : KeepsPages Holds) {rounds : Nat}
    (hlast : growth.start.toNat + (count + rounds) * pageBytes ≤ 2 ^ 32)
    (hfree : ∀ index < count + rounds, pageNumber growth.start index ∉ held)
    (hholds : Holds pages (windowPages growth.start 0 count + held)) :
    (∃ next, (Traced.loop (backNext growth) rounds ⟨count * pageBytes, pages⟩).outcome =
        .ok (.inl ⟨(count + rounds) * pageBytes, next⟩) ∧
      Holds next (windowPages growth.start 0 (count + rounds) + held)) ∨
    ∃ cause done next, (Traced.loop (backNext growth) rounds ⟨count * pageBytes, pages⟩).outcome =
        .ok (.inr (cause, ⟨(count + done) * pageBytes, next⟩)) ∧ done < rounds ∧
      Holds next (windowPages growth.start 0 (count + done) + held) := by
  induction rounds generalizing count pages with
  | zero => exact .inl ⟨pages, rfl, hholds⟩
  | succ rounds ih =>
    have hfits : growth.start.toNat + count * pageBytes < 2 ^ 32 :=
      pageNumber_fits hlast (by omega)
    have hbelow : growth.start.toNat + (0 + count) * pageBytes ≤ 2 ^ 32 := by
      rw [Nat.zero_add]
      exact Nat.le_of_lt hfits
    have hnew : pageNumber growth.start count ∉ windowPages growth.start 0 count + held := by
      rw [Multiset.mem_add, not_or, mem_windowPages hbelow hfits]
      exact ⟨by omega, hfree count (by omega)⟩
    obtain ⟨answer, next, hback, hnext⟩ := laws.back hholds hnew
    have hstep : (backNext growth ⟨count * pageBytes, pages⟩).outcome = (match answer with
        | .ok () => .ok (.inl ⟨count * pageBytes + pageBytes, next⟩)
        | .error cause => .ok (.inr (cause, ⟨count * pageBytes, next⟩))) := by
      unfold backNext
      simp only [Traced.outcome_bind, Traced.outcome_liftM, pageAt_eq hfits, Outcome.ok_bind, hback]
      cases answer <;> rfl
    rw [Traced.loop_succ, Traced.outcome_bind, hstep]
    cases answer with
    | error cause => exact .inr ⟨cause, 0, next, rfl, Nat.succ_pos _, hnext⟩
    | ok _ =>
      simp only [Outcome.ok_bind]
      have hcount : ∀ done, count + 1 + done = count + (done + 1) := by omega
      rw [← Nat.succ_mul]
      rw [← Multiset.cons_add] at hnext
      have hmore := windowPages_succ growth.start 0 count
      rw [Nat.zero_add] at hmore
      rw [← hmore] at hnext
      rw [← hcount rounds] at hlast hfree
      rcases ih hlast hfree hnext with
        ⟨last, hloop, hend⟩ | ⟨cause, done, last, hloop, hlt, hend⟩
      · rw [hcount] at hloop hend
        exact .inl ⟨last, hloop, hend⟩
      · rw [hcount] at hloop hend
        exact .inr ⟨cause, done + 1, last, hloop, Nat.succ_lt_succ hlt, hend⟩

/-- Pages that are backed can be released, from the lowest on. -/
theorem releaseRange_holds (laws : KeepsPages Holds)
    (hlast : growth.start.toNat + (first + count) * pageBytes ≤ 2 ^ 32)
    (hnew : ∀ index, first ≤ index → index < first + count →
      pageNumber growth.start index ∉ held)
    (hholds : Holds pages (windowPages growth.start first count + held)) :
    ∃ next, (releaseRange growth (first * pageBytes) ((first + count) * pageBytes) pages).outcome =
      .ok next ∧ Holds next held := by
  have hcount : ((first + count) * pageBytes - first * pageBytes) / pageBytes = count := by
    rw [← Nat.sub_mul, Nat.add_sub_cancel_left, Nat.mul_div_cancel _ (by decide)]
  unfold releaseRange
  rw [hcount, List.range_eq_range']
  -- The induction goes along the pages that are left, `gone` of them were released.
  suffices hrest : ∀ (left gone : Nat) (pages : β), gone + left = count →
      Holds pages (windowPages growth.start (first + gone) left + held) →
      ∃ next, (Traced.foldl (fun pages index => do
        let addr ← growth.pageAt (first * pageBytes + index * pageBytes)
        PageBacking.release addr pages) pages (List.range' gone left)).outcome = .ok next ∧
          Holds next held from
    hrest count 0 pages (Nat.zero_add _) hholds
  intro left
  induction left with
  | zero =>
    intro gone pages _ hholds
    rw [windowPages_zero, Multiset.zero_add] at hholds
    exact ⟨pages, rfl, hholds⟩
  | succ left ih =>
    intro gone pages hleft hholds
    have hfits : growth.start.toNat + (first + gone) * pageBytes < 2 ^ 32 :=
      pageNumber_fits hlast (by omega)
    have hbehind : growth.start.toNat + (first + gone + 1 + left) * pageBytes ≤ 2 ^ 32 := by
      rwa [show first + gone + 1 + left = first + count by omega]
    have habsent : pageNumber growth.start (first + gone) ∉
        windowPages growth.start (first + gone + 1) left + held := by
      rw [Multiset.mem_add, not_or, mem_windowPages hbehind hfits]
      exact ⟨by omega, hnew _ (by omega) (by omega)⟩
    rw [windowPages_cons, Multiset.cons_add] at hholds
    obtain ⟨next, hrelease, hnext⟩ := laws.release hholds habsent
    obtain ⟨last, hfold, hlast'⟩ := ih (gone + 1) next (by omega) hnext
    refine ⟨last, ?_, hlast'⟩
    rw [List.range'_succ, Traced.foldl_cons, Traced.outcome_bind, Traced.outcome_bind,
      Traced.outcome_liftM, ← Nat.add_mul, pageAt_eq hfits, Outcome.ok_bind, hrelease,
      Outcome.ok_bind, hfold]

/-- Backing pages goes through. If a page is refused, the pages of this step are released, and
otherwise the pages up to the backed bytes are backed. -/
theorem backUntil_holds (laws : KeepsPages Holds) (h : growth.InOrder)
    (hbytes : bytes ≤ growth.maxBytes) (hlast : growth.start.toNat + growth.maxBytes ≤ 2 ^ 32)
    (hfree : ∀ index, index * pageBytes < growth.maxBytes → pageNumber growth.start index ∉ held)
    (hholds : Holds pages (windowPages growth.start 0 (growth.mapped / pageBytes) + held)) :
    ∃ answer other next, (backUntil bytes growth pages).outcome = .ok (answer, other, next) ∧
      answer ≠ .error .exhausted ∧
      Holds next (windowPages growth.start 0 (other.mapped / pageBytes) + held) := by
  obtain ⟨count, hmapped⟩ := h.mapped
  rw [Nat.mul_comm] at hmapped
  have hcount : growth.mapped / pageBytes = count := by
    rw [hmapped, Nat.mul_div_cancel _ (by decide)]
  have hmax := h.mapped_le
  obtain ⟨limit, hlimit⟩ := h.maxBytes
  rw [hcount] at hholds
  -- The end of the last page that is needed lies in the window.
  obtain ⟨stop, hstop⟩ : ∃ stop, (bytes + (pageBytes - 1)) / pageBytes = stop := ⟨_, rfl⟩
  have hstople : stop * pageBytes ≤ growth.maxBytes := by
    rw [show pageBytes = 4096 from rfl] at *
    omega
  have hrounds : (stop * pageBytes - count * pageBytes) / pageBytes = stop - count := by
    rw [← Nat.sub_mul, Nat.mul_div_cancel _ (by decide)]
  unfold backUntil
  simp only [hstop, hmapped, hrounds]
  have hreach : (count + (stop - count)) * pageBytes ≤ growth.maxBytes := by
    rcases Nat.le_total stop count with hle | hle
    · rw [Nat.sub_eq_zero_of_le hle, Nat.add_zero, ← hmapped]
      exact hmax
    · rw [Nat.add_sub_of_le hle]
      exact hstople
  have hfree' : ∀ index < count + (stop - count), pageNumber growth.start index ∉ held := by
    intro index hlt
    refine hfree index (Nat.lt_of_lt_of_le ?_ hreach)
    exact Nat.mul_lt_mul_of_pos_right hlt (by decide)
  rcases loop_holds laws (Nat.le_trans (Nat.add_le_add_left hreach _) hlast) hfree' hholds with
    ⟨next, hloop, hnext⟩ | ⟨cause, done, next, hloop, hlt, hnext⟩
  · simp only [Traced.outcome_bind, hloop, Outcome.ok_bind]
    split_ifs with hmore
    · refine ⟨.ok (), _, next, rfl, nofun, ?_⟩
      have hsum : count + (stop - count) = stop :=
        Nat.add_sub_of_le (Nat.le_of_lt (Nat.lt_of_mul_lt_mul_right hmore))
      rw [hsum] at hnext
      simp only
      rwa [Nat.mul_div_cancel _ (by decide)]
    · refine ⟨.ok (), growth, next, rfl, nofun, ?_⟩
      have hsum : stop - count = 0 := Nat.sub_eq_zero_of_le
        (Nat.le_of_mul_le_mul_right (Nat.le_of_not_lt hmore) (by decide))
      rw [hsum, Nat.add_zero] at hnext
      rwa [hcount]
  · have hdone : growth.start.toNat + (count + done) * pageBytes ≤ 2 ^ 32 := by
      rw [show pageBytes = 4096 from rfl] at *
      omega
    rw [windowPages_add, Multiset.add_assoc] at hnext
    -- The pages of this step are not among those from before.
    have hnew : ∀ index, count ≤ index → index < count + done →
        pageNumber growth.start index ∉ windowPages growth.start 0 count + held := by
      intro index hle hlt'
      have hbelow : growth.start.toNat + (0 + count) * pageBytes ≤ 2 ^ 32 := by
        rw [Nat.zero_add, ← hmapped]
        exact Nat.le_trans (Nat.add_le_add_left hmax _) hlast
      have hfits := pageNumber_fits hdone hlt'
      rw [Multiset.mem_add, not_or, mem_windowPages hbelow hfits]
      exact ⟨by omega, hfree' index (by omega)⟩
    obtain ⟨last, hrelease, hholds'⟩ := releaseRange_holds laws hdone hnew hnext
    simp only [Traced.outcome_bind, hloop, Outcome.ok_bind, Traced.outcome_report, hrelease,
      Traced.outcome_pure]
    exact ⟨_, growth, last, rfl, nofun, by rwa [hcount]⟩

end Keeps

/-! ## Every step checked -/

namespace Checked

/-- The next multiple of the size of a page. -/
def wholePages (bytes : Nat) : Except Fault Nat :=
  if bytes % pageBytes = 0 then .ok bytes else Word.add bytes (pageBytes - bytes % pageBytes)

/-- Backs the next page. A refusal ends the work. -/
def backNext (growth : PagedGrowth) (progress : Progress β) :
    Traced (Progress β ⊕ (MappingError × Progress β)) := do
  let addr ← growth.pageAt progress.offset
  match ← PageBacking.back addr progress.pages with
  | (.ok (), pages) =>
    let offset ← Word.add progress.offset pageBytes
    return .inl ⟨offset, pages⟩
  | (.error cause, pages) => return .inr (cause, ⟨progress.offset, pages⟩)

/-- Takes away the pages between two offsets, from the lowest on. -/
def releaseRange (growth : PagedGrowth) (first stop : Nat) (pages : β) : Traced β := do
  let bytes ← Word.sub stop first
  Traced.foldl (fun pages index => do
    let skipped ← Word.mul index pageBytes
    let offset ← Word.add first skipped
    let addr ← growth.pageAt offset
    PageBacking.release addr pages) pages (List.range (bytes / pageBytes))

/-- Backs pages until at least `bytes` of the window are usable. -/
def backUntil (bytes : Nat) (growth : PagedGrowth) (pages : β) :
    Traced (Except GrowthError Unit × PagedGrowth × β) := do
  let first := growth.mapped
  let stop ← wholePages bytes
  match ← Traced.loop (backNext growth) ((stop - first) / pageBytes) ⟨first, pages⟩ with
  | .inr (cause, progress) =>
    Traced.report .warn fun _ => do
      let addr ← growth.pageAt progress.offset
      let backed ← Word.sub progress.offset first
      let done := backed / pageBytes
      return "heap: backing " ++ addr.text ++ " failed (" ++ cause.message ++
        s!"), releasing {done} pages"
    let pages ← releaseRange growth first progress.offset progress.pages
    return (.error (.backing cause), growth, pages)
  | .inl progress =>
    if first < stop then
      Traced.report .debug fun _ => do
        let low ← growth.pageAt first
        let high ← growth.pageAt stop
        return "heap: backed " ++ low.text ++ " .. " ++ high.text
      return (.ok (), { growth with mapped := stop }, progress.pages)
    else
      return (.ok (), growth, progress.pages)

/-- Backs the first `bytes` of the window now. -/
def prefill (bytes : Nat) (growth : PagedGrowth) (pages : β) :
    Traced (Except GrowthError Unit × PagedGrowth × β) :=
  if growth.maxBytes < bytes then pure (.error .exhausted, growth, pages)
  else backUntil bytes growth pages

/-- Adds so many units and whatever is left of their last page. -/
def extend (units : Nat) (growth : PagedGrowth) (pages : β) :
    Traced (Except GrowthError Nat × PagedGrowth × β) := do
  match advance? growth.brk units growth.maxBytes with
  | none => return (.error .exhausted, growth, pages)
  | some target =>
    match ← backUntil target growth pages with
    | (.error cause, growth, pages) => return (.error cause, growth, pages)
    | (.ok (), growth, pages) =>
      let bytes ← Word.sub growth.mapped growth.brk
      return (.ok (bytes / unitBytes), { growth with brk := growth.mapped }, pages)

/-- Rounding up to whole pages is computed as long as the result fits a word. -/
theorem wholePages_eq (hstop : (bytes + (pageBytes - 1)) / pageBytes * pageBytes < 2 ^ 64) :
    wholePages bytes = .ok ((bytes + (pageBytes - 1)) / pageBytes * pageBytes) := by
  unfold wholePages
  split_ifs with hwhole
  · rw [Except.ok.injEq, show pageBytes = 4096 from rfl] at *
    omega
  · rw [Word.add_eq_ok_iff]
    rw [show pageBytes = 4096 from rfl] at *
    omega

/-- The checked steps back the next page alike as long as the offset behind it fits a word. -/
theorem backNext_eq {progress : Progress β} (hoffset : progress.offset + pageBytes < 2 ^ 64) :
    backNext growth progress = PagedGrowth.backNext growth progress := by
  unfold backNext PagedGrowth.backNext
  refine Traced.bind_congr fun addr _ => Traced.bind_congr fun answer _ => ?_
  obtain ⟨answer, pages⟩ := answer
  cases answer with
  | error cause => rfl
  | ok _ =>
    simp only
    rw [Word.add_eq_ok hoffset, Traced.liftM_ok_bind]

/-- The checked steps back pages alike as long as the offset behind the last one fits a word. -/
theorem loop_eq {rounds offset : Nat} (hoffset : offset + rounds * pageBytes < 2 ^ 64) :
    Traced.loop (backNext growth) rounds ⟨offset, pages⟩ =
      Traced.loop (PagedGrowth.backNext growth) rounds ⟨offset, pages⟩ := by
  induction rounds generalizing offset pages with
  | zero => rw [Traced.loop_zero, Traced.loop_zero]
  | succ rounds ih =>
    rw [Nat.add_mul, Nat.one_mul] at hoffset
    have hnext : offset + pageBytes < 2 ^ 64 := by omega
    rw [Traced.loop_succ, Traced.loop_succ, backNext_eq hnext]
    refine Traced.bind_congr fun result hresult => ?_
    cases result with
    | inr refusal => rfl
    | inl next =>
      have hone : (Traced.loop (PagedGrowth.backNext growth) 1 ⟨offset, pages⟩).outcome =
          .ok (.inl next) := by
        rw [Traced.loop_succ, Traced.outcome_bind, hresult]
        rfl
      rcases loop_offset hone with ⟨last, hlast, hnext⟩ | ⟨cause, last, done, hlast, -⟩
      · cases hlast
        apply ih
        simp only at hnext
        omega
      · cases hlast

/-- The checked steps release the pages between two offsets alike if these are in order and fit a
word. -/
theorem releaseRange_eq {first stop : Nat} (hle : first ≤ stop) (hstop : stop < 2 ^ 64) :
    releaseRange growth first stop pages = PagedGrowth.releaseRange growth first stop pages := by
  unfold releaseRange PagedGrowth.releaseRange
  rw [Word.sub_eq_ok hle, Traced.liftM_ok_bind]
  refine Traced.foldl_congr fun index hm state => ?_
  have hindex : index * pageBytes ≤ stop - first := by
    have hlt := List.mem_range.mp hm
    exact Nat.le_trans (Nat.mul_le_mul_right _ (Nat.le_of_lt hlt)) (Nat.div_mul_le_self _ _)
  have hskipped : index * pageBytes < 2 ^ 64 := by omega
  have hoffset : first + index * pageBytes < 2 ^ 64 := by omega
  rw [Word.mul_eq_ok hskipped, Traced.liftM_ok_bind, Word.add_eq_ok hoffset,
    Traced.liftM_ok_bind]

/-- If the size of the window fits a word, no step of backing pages runs over. -/
theorem backUntil_eq (h : growth.InOrder) (hword : growth.maxBytes < 2 ^ 64)
    (hbytes : bytes ≤ growth.maxBytes) :
    backUntil bytes growth pages = PagedGrowth.backUntil bytes growth pages := by
  have hmapped := h.mapped_le
  obtain ⟨stop, hstop, hstople⟩ : ∃ stop,
      (bytes + (pageBytes - 1)) / pageBytes * pageBytes = stop ∧ stop ≤ growth.maxBytes := by
    refine ⟨_, rfl, ?_⟩
    obtain ⟨limit, hlimit⟩ := h.maxBytes
    rw [show pageBytes = 4096 from rfl] at *
    omega
  have hwhole : wholePages bytes = .ok stop := by
    rw [← hstop] at hstople ⊢
    exact wholePages_eq (Nat.lt_of_le_of_lt hstople hword)
  have hrounds := Nat.div_mul_le_self (stop - growth.mapped) pageBytes
  have hloop : growth.mapped + (stop - growth.mapped) / pageBytes * pageBytes < 2 ^ 64 := by
    omega
  unfold backUntil PagedGrowth.backUntil
  simp only [hwhole, hstop, Traced.liftM_ok_bind, loop_eq hloop]
  apply Traced.bind_congr
  intro result hresult
  cases result with
  | inl progress => rfl
  | inr refusal =>
    obtain ⟨cause, progress⟩ := refusal
    rcases loop_offset hresult with ⟨last, hlast', -⟩ | ⟨cause', last, done, hlast', hlt, hoffset⟩
    · cases hlast'
    · cases hlast'
      have hle : growth.mapped ≤ progress.offset := hoffset ▸ Nat.le_add_right _ _
      have hend : progress.offset < 2 ^ 64 := by
        have hdone : done * pageBytes ≤ (stop - growth.mapped) / pageBytes * pageBytes :=
          Nat.mul_le_mul_right _ (Nat.le_of_lt hlt)
        simp only at hoffset
        omega
      simp only [Word.sub_eq_ok hle, Outcome.ok_bind, releaseRange_eq hle hend]

/-- The checked steps back pages beforehand alike if the bounds are in order and the window fits a
word. -/
theorem prefill_eq (h : growth.InOrder) (hword : growth.maxBytes < 2 ^ 64) (bytes : Nat) :
    prefill bytes growth pages = PagedGrowth.prefill bytes growth pages := by
  unfold prefill PagedGrowth.prefill
  split_ifs with hexcess
  · rfl
  · exact backUntil_eq h hword (Nat.le_of_not_lt hexcess)

/-- The checked steps extend a window alike if the bounds are in order and the window fits a word.
-/
theorem extend_eq (h : growth.InOrder) (hword : growth.maxBytes < 2 ^ 64) (units : Nat) :
    extend units growth pages = PagedGrowth.extend units growth pages := by
  unfold extend PagedGrowth.extend
  cases hadvance : advance? growth.brk units growth.maxBytes with
  | none => rfl
  | some target =>
    obtain ⟨-, htarget, -⟩ := advance?_eq_some hadvance
    simp only [backUntil_eq h hword htarget]
    refine Traced.bind_congr fun result hresult => ?_
    obtain ⟨answer, other, next⟩ := result
    rcases backUntil_ok hresult with ⟨cause, rfl, rfl⟩ | ⟨rfl, rfl⟩
    · rfl
    · simp only
      rw [Word.sub_eq_ok (h.backed htarget).brk_le, Traced.liftM_ok_bind]

end Checked

end PagedGrowth

/-! ## Runs -/

namespace WindowRun

open PagedGrowth

variable {Holds : β → Multiset VirtAddr → Prop} {first : VirtAddr} {limit : Nat}
  {held : Multiset VirtAddr} {state next : WindowRun β} {call : WindowCall}

/-- The answer to a call, with every step checked. -/
def Checked.step (state : WindowRun β) : WindowCall → Traced (WindowAnswer × WindowRun β)
  | .prefill bytes => do
    let (answer, growth, pages) ← Checked.prefill bytes state.growth state.pages
    return (.prefilled answer, ⟨growth, pages⟩)
  | .extend units => do
    let (answer, growth, pages) ← Checked.extend units state.growth state.pages
    return (.extended answer, ⟨growth, pages⟩)

/-- If the size of the window fits a word, no step of a call runs over. -/
theorem Checked.step_eq (h : state.growth.InOrder) (hword : state.growth.maxBytes < 2 ^ 64)
    (call : WindowCall) : Checked.step state call = state.step call := by
  cases call with
  | prefill bytes => simp only [Checked.step, WindowRun.step, Checked.prefill_eq h hword]
  | extend units => simp only [Checked.step, WindowRun.step, Checked.extend_eq h hword]

/-- What a window keeps: its bounds are in order and whole pages, and on top of what was held in the
beginning exactly the pages below the backed bytes are held, each once. -/
structure Kept (Holds : β → Multiset VirtAddr → Prop) (first : VirtAddr) (limit : Nat)
    (held : Multiset VirtAddr) (state : WindowRun β) : Prop where
  inOrder : state.growth.InOrder
  start_eq : state.growth.start = first
  maxBytes_eq : state.growth.maxBytes = limit
  holds : Holds state.pages (windowPages first 0 (state.growth.mapped / pageBytes) + held)

/-- What the answer to a call says. Backing pages beforehand is refused as exhausted exactly if the
window is too small, and does not move the break. So is an extension, and otherwise it moves the
break by what it answers, which is no less than was asked for, up to the backed bytes. An error
moves nothing. -/
def Answered (state : WindowRun β) : WindowCall → WindowAnswer → WindowRun β → Prop
  | .prefill bytes, .prefilled answer, next =>
    (answer = .error .exhausted ↔ state.growth.maxBytes < bytes) ∧
      (answer = .ok () → next.growth.brk = state.growth.brk ∧ bytes ≤ next.growth.mapped) ∧
      ∀ cause, answer = .error cause → next.growth = state.growth
  | .extend units, .extended answer, next =>
    (answer = .error .exhausted ↔ 2 ^ 64 ≤ units * unitBytes ∨
        state.growth.maxBytes < state.growth.brk + units * unitBytes) ∧
      (∀ added, answer = .ok added → units ≤ added ∧
        next.growth.brk = state.growth.brk + added * unitBytes ∧
        next.growth.brk = next.growth.mapped) ∧
      ∀ cause, answer = .error cause → next.growth = state.growth
  | _, _, _ => False

omit [PageBacking β] in
/-- A new window keeps the pages that were held before. -/
theorem kept_start {pages : β} {maxBytes : Nat} (hmax : maxBytes < 2 ^ 64) (window : Nat)
    (hholds : Holds pages held) :
    (start window first maxBytes pages).Kept Holds first (roundDown maxBytes pageBytes) held := by
  refine ⟨inOrder_ofWindow window first hmax, rfl, rfl, ?_⟩
  show Holds pages (windowPages first 0 (0 / pageBytes) + held)
  rwa [Nat.zero_div, windowPages_zero, Multiset.zero_add]

/-- Backing pages within the window goes through, is not refused as exhausted, and keeps the window,
whether or not it moves the backed bytes. -/
theorem Kept.backUntil (laws : KeepsPages Holds) (h : state.Kept Holds first limit held)
    (hlast : first.toNat + limit ≤ 2 ^ 32)
    (hfree : ∀ index, index * pageBytes < limit → pageNumber first index ∉ held) {bytes : Nat}
    (hbytes : bytes ≤ limit) :
    ∃ answer growth pages,
      (PagedGrowth.backUntil bytes state.growth state.pages).outcome =
        .ok (answer, growth, pages) ∧
      Kept Holds first limit held ⟨growth, pages⟩ ∧ answer ≠ .error .exhausted ∧
      (answer = .ok () → growth.brk = state.growth.brk ∧ bytes ≤ growth.mapped) ∧
      ∀ cause, answer = .error cause → growth = state.growth := by
  obtain ⟨hin, rfl, rfl, hholds⟩ := h
  obtain ⟨answer, growth, pages, hback, hbacking, hnext⟩ :=
    backUntil_holds laws hin hbytes hlast hfree hholds
  refine ⟨answer, growth, pages, hback, ?_⟩
  rcases backUntil_ok hback with ⟨cause, rfl, rfl⟩ | ⟨rfl, rfl⟩
  · exact ⟨⟨hin, rfl, rfl, hnext⟩, hbacking, nofun, fun _ _ => rfl⟩
  · exact ⟨⟨hin.backed hbytes, rfl, rfl, hnext⟩, hbacking,
      fun _ => ⟨rfl, le_mapped_of_backUntil hback⟩, nofun⟩

/-- Backing pages beforehand goes through and keeps the window, and its answer says what has
happened. -/
theorem Kept.prefill (laws : KeepsPages Holds) (h : state.Kept Holds first limit held)
    (hlast : first.toNat + limit ≤ 2 ^ 32)
    (hfree : ∀ index, index * pageBytes < limit → pageNumber first index ∉ held) (bytes : Nat) :
    ∃ answer next, (state.step (.prefill bytes)).outcome = .ok (answer, next) ∧
      next.Kept Holds first limit held ∧ state.Answered (.prefill bytes) answer next := by
  by_cases hexcess : state.growth.maxBytes < bytes
  · refine ⟨.prefilled (.error .exhausted), state, ?_, h, ?_, nofun, fun _ _ => rfl⟩
    · simp only [WindowRun.step, PagedGrowth.prefill, if_pos hexcess, Traced.outcome_bind,
        Outcome.ok_bind, Traced.outcome_pure]
    · exact iff_of_true rfl hexcess
  · obtain ⟨answer, growth, pages, hback, hkept, hbacking, hok, herror⟩ :=
      h.backUntil laws hlast hfree (h.maxBytes_eq ▸ Nat.le_of_not_lt hexcess)
    refine ⟨.prefilled answer, ⟨growth, pages⟩, ?_, hkept, ?_, hok, herror⟩
    · simp only [WindowRun.step, PagedGrowth.prefill, if_neg hexcess, Traced.outcome_bind, hback,
        Outcome.ok_bind, Traced.outcome_pure]
    · exact iff_of_false hbacking hexcess

omit [PageBacking β] in
/-- When the break moves up to the backed bytes, the window is kept. -/
theorem Kept.raised (h : state.Kept Holds first limit held) :
    Kept Holds first limit held
      ⟨{ state.growth with brk := state.growth.mapped }, state.pages⟩ := by
  have hin := h.inOrder
  exact ⟨⟨hin.mapped, hin.mapped, hin.maxBytes, Nat.le_refl _, hin.mapped_le, hin.maxBytes_le⟩,
    h.start_eq, h.maxBytes_eq, h.holds⟩

/-- So does an extension. -/
theorem Kept.extend (laws : KeepsPages Holds) (h : state.Kept Holds first limit held)
    (hlast : first.toNat + limit ≤ 2 ^ 32)
    (hfree : ∀ index, index * pageBytes < limit → pageNumber first index ∉ held) (units : Nat) :
    ∃ answer next, (state.step (.extend units)).outcome = .ok (answer, next) ∧
      next.Kept Holds first limit held ∧ state.Answered (.extend units) answer next := by
  have hmax := h.maxBytes_eq
  cases hadvance : advance? state.growth.brk units state.growth.maxBytes with
  | none =>
    have hword : state.growth.maxBytes < 2 ^ 64 := by omega
    refine ⟨.extended (.error .exhausted), state, ?_, h, ?_, nofun, fun _ _ => rfl⟩
    · simp only [WindowRun.step, PagedGrowth.extend, hadvance, Traced.outcome_bind,
        Outcome.ok_bind, Traced.outcome_pure]
    · exact iff_of_true rfl (.inr ((advance?_eq_none_iff hword).mp hadvance))
  | some target =>
    obtain ⟨htarget, hle, hlt⟩ := advance?_eq_some hadvance
    have hfits : ¬(2 ^ 64 ≤ units * unitBytes ∨
        state.growth.maxBytes < state.growth.brk + units * unitBytes) := by omega
    obtain ⟨answer, growth, pages, hback, hkept, hbacking, hok, herror⟩ :=
      h.backUntil laws hlast hfree (hmax ▸ hle)
    cases answer with
    | error cause =>
      refine ⟨.extended (.error cause), ⟨growth, pages⟩, ?_, hkept, ?_, nofun, ?_⟩
      · simp only [WindowRun.step, PagedGrowth.extend, hadvance, Traced.outcome_bind, hback,
          Outcome.ok_bind, Traced.outcome_pure]
      · refine iff_of_false ?_ hfits
        rintro ⟨⟩
        exact hbacking rfl
      · exact fun _ _ => herror cause rfl
    | ok _ =>
      obtain ⟨hbrk, hreach⟩ := hok rfl
      have hin := hkept.inOrder
      -- Both bounds are whole pages, so nothing is lost when their distance is taken in units.
      have hexact : state.growth.brk + (growth.mapped - growth.brk) / unitBytes * unitBytes =
          growth.mapped := by
        have hunits : unitBytes ∣ growth.mapped - growth.brk :=
          Nat.dvd_trans ⟨256, rfl⟩ (Nat.dvd_sub hin.mapped hin.brk)
        rw [Nat.div_mul_cancel hunits, ← hbrk]
        exact Nat.add_sub_of_le hin.brk_le
      refine ⟨.extended (.ok ((growth.mapped - growth.brk) / unitBytes)),
        ⟨{ growth with brk := growth.mapped }, pages⟩, ?_, hkept.raised, ?_, ?_, nofun⟩
      · simp only [WindowRun.step, PagedGrowth.extend, hadvance, Traced.outcome_bind, hback,
          Outcome.ok_bind, Traced.outcome_pure]
      · exact iff_of_false nofun hfits
      · rintro added ⟨⟩
        refine ⟨?_, hexact.symm, rfl⟩
        apply (Nat.le_div_iff_mul_le (by decide)).mpr
        omega

/-- Every call goes through and keeps the window, and its answer says what has happened. No step of
it runs over. -/
theorem Kept.step (laws : KeepsPages Holds) (h : state.Kept Holds first limit held)
    (hlast : first.toNat + limit ≤ 2 ^ 32)
    (hfree : ∀ index, index * pageBytes < limit → pageNumber first index ∉ held)
    (call : WindowCall) :
    ∃ answer next, (state.step call).outcome = .ok (answer, next) ∧
      next.Kept Holds first limit held ∧ state.Answered call answer next ∧
      Checked.step state call = state.step call := by
  have hword : state.growth.maxBytes < 2 ^ 64 := by
    rw [h.maxBytes_eq]
    omega
  have hchecked := Checked.step_eq h.inOrder hword call
  cases call with
  | prefill bytes =>
    obtain ⟨answer, next, hstep, hkept, hanswer⟩ := h.prefill laws hlast hfree bytes
    exact ⟨answer, next, hstep, hkept, hanswer, hchecked⟩
  | extend units =>
    obtain ⟨answer, next, hstep, hkept, hanswer⟩ := h.extend laws hlast hfree units
    exact ⟨answer, next, hstep, hkept, hanswer, hchecked⟩

/-- Whatever the backing refuses, and whatever the calls: a window over a backing that keeps count
of its pages is kept. Its break does not pass the backed bytes, these do not pass the window, all
are whole pages, and of the window exactly the pages below the backed bytes are backed, each once.
The next call, whichever it is, goes through and keeps the window too, and its answer says what has
happened: an error leaves the bounds and the pages as they were, also if it came up when some pages
of the step were backed. -/
theorem run_keeps_pages (laws : KeepsPages Holds) (window : Nat) {first : VirtAddr}
    {maxBytes : Nat} (hlast : first.toNat + maxBytes ≤ 2 ^ 32) {pages : β}
    (hholds : Holds pages held)
    (hfree : ∀ index < maxBytes / pageBytes, pageNumber first index ∉ held)
    (calls : List WindowCall) :
    ∃ answers last, ((start window first maxBytes pages).run calls).outcome = .ok (answers, last) ∧
      last.Kept Holds first (roundDown maxBytes pageBytes) held ∧
      ∀ call, ∃ answer next, (last.step call).outcome = .ok (answer, next) ∧
        Checked.step last call = last.step call ∧ last.Answered call answer next ∧
        next.Kept Holds first (roundDown maxBytes pageBytes) held := by
  have hdown : roundDown maxBytes pageBytes ≤ maxBytes := Nat.div_mul_le_self _ _
  have hlast' : first.toNat + roundDown maxBytes pageBytes ≤ 2 ^ 32 :=
    Nat.le_trans (Nat.add_le_add_left hdown _) hlast
  have hfree' : ∀ index, index * pageBytes < roundDown maxBytes pageBytes →
      pageNumber first index ∉ held :=
    fun index hlt => hfree index (Nat.lt_of_mul_lt_mul_right hlt)
  have hstart : (start window first maxBytes pages).Kept Holds first
      (roundDown maxBytes pageBytes) held := kept_start (by omega) window hholds
  -- The induction goes along the calls, and each of them starts from a window that is kept.
  generalize start window first maxBytes pages = state at hstart
  suffices hrun : ∃ answers last, (state.run calls).outcome = .ok (answers, last) ∧
      last.Kept Holds first (roundDown maxBytes pageBytes) held by
    obtain ⟨answers, last, hcalls, hkept⟩ := hrun
    refine ⟨answers, last, hcalls, hkept, fun call => ?_⟩
    obtain ⟨answer, next, hstep, hnext, hanswer, hchecked⟩ := hkept.step laws hlast' hfree' call
    exact ⟨answer, next, hstep, hchecked, hanswer, hnext⟩
  induction calls generalizing state with
  | nil => exact ⟨[], state, rfl, hstart⟩
  | cons call calls ih =>
    obtain ⟨answer, next, hstep, hnext, -⟩ := hstart.step laws hlast' hfree' call
    obtain ⟨answers, last, hcalls, hkept⟩ := ih next hnext
    refine ⟨answer :: answers, last, ?_, hkept⟩
    simp only [run, Traced.outcome_bind, hstep, Outcome.ok_bind, hcalls, Traced.outcome_pure]

/-- A ledger for three pages, one of which somebody else has, behind a window of eight pages and a
bit. One page is backed beforehand. Then three pages are asked for, the third is refused, and the
second is released again. The first page can still be given, and more than the window has is
refused as exhausted. -/
theorem run_keeps_pages_third_refused :
    let calls : List WindowCall := [.prefill 4096, .extend 600, .extend 256]
    let other : VirtAddr := .ofNat 0x9000
    ∃ last next, ((start 0x800000 (.ofNat 0x100000) 0x8064 (⟨#[other], some 3, none⟩ :
        PageLedger)).run calls).outcome = .ok ([.prefilled (.ok ()),
          .extended (.error (.backing .outOfFrames)), .extended (.ok 256)], last) ∧
      last.growth.mapped = 0x1000 ∧
      PageLedger.Holds last.pages (windowPages (.ofNat 0x100000) 0 1 + {other}) ∧
      (last.step (.extend 0x1000)).outcome = .ok (.extended (.error .exhausted), next) ∧
      next.growth = last.growth := by
  intro calls other
  have hrun : ((start 0x800000 (.ofNat 0x100000) 0x8064 (⟨#[other], some 3, none⟩ :
      PageLedger)).run calls).outcome.map
        (fun result => (result.1, result.2.growth.mapped, result.2.growth.brk)) =
      .ok ([.prefilled (.ok ()), .extended (.error (.backing .outOfFrames)),
        .extended (.ok 256)], 0x1000, 0x1000) := by
    decide +kernel
  have hfits : (VirtAddr.ofNat 0x100000).toNat + 0x8064 ≤ 2 ^ 32 := by decide
  have hheld : PageLedger.Holds ⟨#[other], some 3, none⟩ {other} := rfl
  obtain ⟨answers, last, hlast, hkept, hnext⟩ :=
    run_keeps_pages PageLedger.keepsPages 0x800000 hfits hheld (by decide) calls
  rw [hlast, Outcome.map_ok, Except.ok.injEq, Prod.mk.injEq, Prod.mk.injEq] at hrun
  obtain ⟨rfl, hmapped, hbrk⟩ := hrun
  obtain ⟨answer, next, hstep, -, hanswer, -⟩ := hnext (.extend 0x1000)
  have hholds := hkept.holds
  rw [hmapped] at hholds
  cases answer with
  | prefilled answer => exact hanswer.elim
  | extended answer =>
    obtain ⟨hexhausted, -, herror⟩ := hanswer
    have hrefused : answer = .error .exhausted := by
      rw [hexhausted, hkept.maxBytes_eq, hbrk]
      decide
    rw [hrefused] at hstep herror
    exact ⟨last, next, hlast, hmapped, hholds, hstep, herror _ rfl⟩

end WindowRun

end BootMemory
