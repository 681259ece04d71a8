import BootMemory.Frames.Storage
import BootMemory.Proofs.Address.Rounding
import BootMemory.Proofs.MemoryMap.Basic
import Mathlib.Order.Bounds.Basic
import Mathlib.Tactic.SplitIfs

/-!
# Where the bitmaps go

In each region at most two addresses are tried: the first one that the region and the floor allow,
and, if the kernel shares the region, the first page behind the kernel. Nothing else has to be
tried: of all the addresses in the region at which the bitmaps would fit, the least is one of the
two (`isLeast_placeOf?`), as long as rounding up does not run into the last page of a word.

A place is tried by adding the length of the bitmaps to it, and where that sum does not fit a word
the search ends with a fault (`Overruns`), whether or not there is a place further on.
-/

set_option autoImplicit false

namespace BootMemory

/-- Rounding up to pages gives the least page that is not below, except at the end of a word. -/
theorem roundUp_le_iff {n page : Nat} (hn : n + 4095 < 2 ^ 64) (hpage : pageBytes ∣ page) :
    roundUp n pageBytes ≤ page ↔ n ≤ page := by
  have hsum : roundUp n pageBytes = roundDown (n + (pageBytes - 1)) pageBytes := if_pos hn
  rw [hsum, roundDown_add_le_iff (by decide) hpage]

/-- Rounding up to the page size adds less than a page. -/
theorem roundUp_le_add (n : Nat) : roundUp n pageBytes ≤ n + 4095 := by
  rw [show pageBytes = 4096 from rfl]
  unfold roundUp roundDown
  split_ifs <;> omega

namespace BitmapStorage

/-- The first address at which the bitmaps may start in a region. -/
def lowest (floor : Nat) (region : Region) : Nat := roundUp (max region.base floor) pageBytes

/-- The end of the last page that they may have. -/
def highest (reach : Nat) (region : Region) : Nat := roundDown (min region.stop reach) pageBytes

/-- The first address at which they may start behind the kernel. -/
def behind (kernel : KernelImage) (floor : Nat) (region : Region) : Nat :=
  max kernel.pageStop.toNat (lowest floor region)

section Search

variable (kernel : KernelImage) (words floor reach : Nat)

/-- The bitmaps fit in front of the kernel. -/
def FitsBefore (region : Region) : Prop :=
  lowest floor region + span words ≤ highest reach region ∧
    lowest floor region + span words ≤ kernel.start.toNat

instance (region : Region) : Decidable (FitsBefore kernel words floor reach region) :=
  inferInstanceAs (Decidable (_ ∧ _))

/-- The place that a region has, whatever numbers are needed to find it. -/
def placeOf? (region : Region) : Option BitmapStorage :=
  if kernel.overlaps region.base region.stop then
    if FitsBefore kernel words floor reach region then
      some ⟨lowest floor region, words, .beforeKernel⟩
    else if behind kernel floor region + span words ≤ highest reach region then
      some ⟨behind kernel floor region, words, .afterKernel⟩
    else none
  else if lowest floor region + span words ≤ highest reach region then
    some ⟨lowest floor region, words, .disjointFromKernel⟩
  else none

/-- The bitmaps would end past the last address at a place that is tried in a region. -/
def Overruns (region : Region) : Prop :=
  2 ^ 64 ≤ lowest floor region + span words ∨
    kernel.overlaps region.base region.stop = true ∧
      ¬FitsBefore kernel words floor reach region ∧
        2 ^ 64 ≤ behind kernel floor region + span words

instance (region : Region) : Decidable (Overruns kernel words floor reach region) :=
  inferInstanceAs (Decidable (_ ∨ _))

/-- The search comes to a region in which the bitmaps would end past the last address. -/
def SearchOverruns : List Region → Prop
  | [] => False
  | region :: rest => Overruns kernel words floor reach region ∨
    placeOf? kernel words floor reach region = none ∧ SearchOverruns rest

instance decidableSearchOverruns : (regions : List Region) →
    Decidable (SearchOverruns kernel words floor reach regions)
  | [] => inferInstanceAs (Decidable False)
  | _ :: rest =>
    have := decidableSearchOverruns rest
    inferInstanceAs (Decidable (_ ∨ _ ∧ _))

end Search

variable {kernel : KernelImage} {words floor reach start : Nat} {region : Region}
  {regions : List Region} {storage : BitmapStorage}

/-! ## The search -/

/-- The sum that a place is tried with fits a word, or that is a fault. -/
theorem fits_eq {low high span start : Nat} (h : low ≤ start) : fits low high span start =
    if 2 ^ 64 ≤ start + span then .error .overflow else .ok (decide (start + span ≤ high)) := by
  unfold fits Word.add
  rw [if_pos h]
  split_ifs
  · omega
  · rfl
  · rfl
  · omega

/-- A region has its place, unless looking for it runs over. -/
theorem placeIn?_eq (hstop : region.stop < 2 ^ 64) : placeIn? kernel words floor reach region =
    if Overruns kernel words floor reach region then .error .overflow
    else .ok (placeOf? kernel words floor reach region) := by
  have hlow : roundUp (max region.base floor) pageBytes = lowest floor region := rfl
  have hhigh : roundDown (min region.stop reach) pageBytes = highest reach region := rfl
  have hbehind : max kernel.pageStop.toNat (lowest floor region) = behind kernel floor region := rfl
  have hle : lowest floor region ≤ behind kernel floor region := Nat.le_max_right _ _
  unfold placeIn?
  rw [Region.end?_of_lt hstop, Outcome.ok_bind]
  simp only [hlow, hhigh, hbehind, fits_eq (Nat.le_refl _), fits_eq hle]
  have hbefore_iff : (decide (lowest floor region + span words ≤ highest reach region) &&
      decide (lowest floor region + span words ≤ kernel.start.toNat)) = true ↔
        FitsBefore kernel words floor reach region := by
    rw [Bool.and_eq_true, decide_eq_true_eq, decide_eq_true_eq, FitsBefore]
  unfold placeOf?
  by_cases hlowest : 2 ^ 64 ≤ lowest floor region + span words
  · rw [if_pos hlowest, if_pos (show Overruns kernel words floor reach region from .inl hlowest)]
    split_ifs <;> rfl
  rw [if_neg hlowest, Outcome.ok_bind, Outcome.ok_bind]
  by_cases hover : kernel.overlaps region.base region.stop = true
  · rw [if_pos hover, if_pos hover]
    by_cases hbefore : FitsBefore kernel words floor reach region
    · have hfits : ¬Overruns kernel words floor reach region := fun h =>
        h.elim hlowest fun h => h.2.1 hbefore
      rw [if_pos (hbefore_iff.mpr hbefore), if_pos hbefore, if_neg hfits]
      rfl
    rw [if_neg (hbefore_iff.not.mpr hbefore), if_neg hbefore]
    by_cases hlast : 2 ^ 64 ≤ behind kernel floor region + span words
    · have hruns : Overruns kernel words floor reach region := .inr ⟨hover, hbefore, hlast⟩
      rw [if_pos hlast, if_pos hruns]
      rfl
    · have hfits : ¬Overruns kernel words floor reach region := fun h =>
        h.elim hlowest fun h => hlast h.2.2
      rw [if_neg hlast, if_neg hfits, Outcome.ok_bind]
      simp only [decide_eq_true_eq, Outcome.pure_eq_ok]
  · have hfits : ¬Overruns kernel words floor reach region := fun h =>
      h.elim hlowest fun h => hover h.1
    rw [if_neg hover, if_neg hover, if_neg hfits]
    simp only [decide_eq_true_eq, Outcome.pure_eq_ok]

/-- The first place of a region is found, unless the search runs over. -/
theorem place?_eq (hstops : ∀ region ∈ regions, region.stop < 2 ^ 64) :
    place? kernel words floor reach regions =
      if SearchOverruns kernel words floor reach regions then .error .overflow
      else .ok (regions.findSome? (placeOf? kernel words floor reach)) := by
  induction regions with
  | nil => rfl
  | cons region rest ih =>
    obtain ⟨hstop, hrest⟩ := List.forall_mem_cons.mp hstops
    unfold place?
    rw [placeIn?_eq hstop, ih hrest]
    by_cases hruns : Overruns kernel words floor reach region
    · have hsearch : SearchOverruns kernel words floor reach (region :: rest) := .inl hruns
      rw [if_pos hruns, if_pos hsearch]
      rfl
    rw [if_neg hruns, Outcome.ok_bind, List.findSome?_cons]
    cases hplace : placeOf? kernel words floor reach region with
    | some storage =>
      have hsearch : ¬SearchOverruns kernel words floor reach (region :: rest) := fun h =>
        h.elim hruns fun h => nomatch hplace.symm.trans h.1
      rw [if_neg hsearch]
      rfl
    | none =>
      have hsearch : SearchOverruns kernel words floor reach (region :: rest) ↔
          SearchOverruns kernel words floor reach rest :=
        (or_iff_right hruns).trans (and_iff_right hplace)
      simp only [hsearch]

/-! ## Feasible addresses -/

/-- An address at which the bitmaps may be put: they would fill whole pages inside a region, not
below the floor and within reach, and share no byte with the kernel image. -/
structure FeasibleIn (kernel : KernelImage) (words floor reach : Nat) (region : Region)
    (start : Nat) : Prop where
  aligned : pageBytes ∣ start
  floor_le : floor ≤ start
  base_le : region.base ≤ start
  le_stop : start + span words ≤ region.stop
  le_reach : start + span words ≤ reach
  apart : ∀ addr, start ≤ addr → addr < start + span words →
    ¬(kernel.start.toNat ≤ addr ∧ addr < kernel.stop.toNat)

/-- The bitmaps take up whole pages. -/
theorem dvd_span (words : Nat) : pageBytes ∣ span words := dvd_roundUp _ _

/-- The last page of the kernel ends at the end of the image, rounded up. -/
theorem toNat_pageStop (kernel : KernelImage) :
    kernel.pageStop.toNat = roundUp kernel.stop.toNat pageBytes := by
  rw [show pageBytes = PageSize.small.bytes from rfl]
  simp only [KernelImage.pageStop, PhysAddr.alignUp]

/-- Bytes share none with the image if they end before it starts or start behind its end. -/
theorem apart_iff (hkernel : kernel.start.toNat < kernel.stop.toNat) (hwords : 0 < span words) :
    (∀ addr, start ≤ addr → addr < start + span words →
      ¬(kernel.start.toNat ≤ addr ∧ addr < kernel.stop.toNat)) ↔
    start + span words ≤ kernel.start.toNat ∨ kernel.stop.toNat ≤ start := by
  constructor
  · intro hapart
    by_contra hmeets
    -- The first byte that both have, if they have one.
    exact hapart (max start kernel.start.toNat) (by omega) (by omega) (by omega)
  · rintro hsides addr hlow hhigh ⟨hin, hin'⟩
    omega

/-- Where the bitmaps may be put, in terms of the addresses that the search computes. -/
theorem feasibleIn_iff (hkernel : kernel.start.toNat < kernel.stop.toNat)
    (hwords : 0 < span words) (hbase : region.base ≤ 2 ^ 63) (hfloor : floor ≤ 2 ^ 63)
    (hstop : kernel.stop.toNat ≤ 2 ^ 63) (haligned : pageBytes ∣ start) :
    FeasibleIn kernel words floor reach region start ↔
      lowest floor region ≤ start ∧ start + span words ≤ highest reach region ∧
        (start + span words ≤ kernel.start.toNat ∨ kernel.pageStop.toNat ≤ start) := by
  have hend : pageBytes ∣ start + span words := Nat.dvd_add haligned (dvd_span words)
  have hpage : kernel.pageStop.toNat ≤ start ↔ kernel.stop.toNat ≤ start := by
    rw [toNat_pageStop, roundUp_le_iff (by omega) haligned]
  rw [lowest, highest, roundUp_le_iff (by omega) haligned, le_roundDown_iff hend, hpage,
    ← apart_iff hkernel hwords, Nat.max_le, Nat.le_min]
  constructor
  · intro h
    exact ⟨⟨h.base_le, h.floor_le⟩, ⟨h.le_stop, h.le_reach⟩, h.apart⟩
  · rintro ⟨⟨hbase, hfloor⟩, ⟨hstop, hreach⟩, hapart⟩
    exact ⟨haligned, hfloor, hbase, hstop, hreach, hapart⟩

/-- The first address that is tried in a region is the base of a page. -/
theorem dvd_lowest (floor : Nat) (region : Region) : pageBytes ∣ lowest floor region :=
  dvd_roundUp _ _

/-- The first address that is tried behind the kernel is the base of a page. -/
theorem dvd_behind (kernel : KernelImage) (floor : Nat) (region : Region) :
    pageBytes ∣ behind kernel floor region := by
  unfold behind
  rcases Nat.le_total kernel.pageStop.toNat (lowest floor region) with hle | hle
  · rw [Nat.max_eq_right hle]
    exact dvd_lowest floor region
  · rw [Nat.max_eq_left hle, toNat_pageStop]
    exact dvd_roundUp _ _

/-- What a place that is found is, wherever the kernel lies. -/
theorem placeOf?_eq_some (h : placeOf? kernel words floor reach region = some storage) :
    storage.words = words ∧ pageBytes ∣ storage.start ∧
      storage.start + span words ≤ highest reach region := by
  unfold placeOf? at h
  split_ifs at h with hover hbefore hbehind hfits
  all_goals
    obtain rfl := Option.some.inj h
    dsimp only
  · exact ⟨rfl, dvd_lowest floor region, hbefore.1⟩
  · exact ⟨rfl, dvd_behind kernel floor region, hbehind⟩
  · exact ⟨rfl, dvd_lowest floor region, hfits⟩

/-- A feasible address is not below the one that is tried behind the kernel, unless the bitmaps fit
in front of the kernel. -/
theorem behind_le_of_feasible (hnot : ¬FitsBefore kernel words floor reach region)
    (hlow : lowest floor region ≤ start) (hhigh : start + span words ≤ highest reach region)
    (hsides : start + span words ≤ kernel.start.toNat ∨ kernel.pageStop.toNat ≤ start) :
    behind kernel floor region ≤ start := by
  refine Nat.max_le.mpr ⟨hsides.resolve_left fun hbefore => hnot ⟨?_, ?_⟩, hlow⟩ <;> omega

/-- Whole pages of a region that the kernel does not share lie on one side of the kernel. -/
theorem sides_of_not_overlaps (hbase : region.base ≤ 2 ^ 63) (hfloor : floor ≤ 2 ^ 63)
    (hstop : kernel.stop.toNat ≤ 2 ^ 63) (hover : ¬kernel.overlaps region.base region.stop = true)
    (haligned : pageBytes ∣ start) (hlow : lowest floor region ≤ start)
    (hhigh : start + span words ≤ highest reach region) :
    start + span words ≤ kernel.start.toNat ∨ kernel.pageStop.toNat ≤ start := by
  have hsides : kernel.stop.toNat ≤ region.base ∨ region.stop ≤ kernel.start.toNat := by
    simpa only [KernelImage.overlaps, Bool.and_eq_true, decide_eq_true_eq, not_and_or,
      Nat.not_lt] using hover
  rcases hsides with hbelow | habove
  · right
    have hge : max region.base floor ≤ lowest floor region :=
      (roundUp_le_iff (by omega) (dvd_lowest floor region)).mp (Nat.le_refl _)
    rw [toNat_pageStop, roundUp_le_iff (by omega) haligned]
    omega
  · left
    have hle : highest reach region ≤ min region.stop reach := roundDown_le _ _
    omega

/-- The place of a region is the least feasible address in it, and there is none without a place. -/
theorem isLeast_placeOf? (reach : Nat) (hkernel : kernel.start.toNat < kernel.stop.toNat)
    (hwords : 0 < span words) (hbase : region.base ≤ 2 ^ 63) (hfloor : floor ≤ 2 ^ 63)
    (hstop : kernel.stop.toNat ≤ 2 ^ 63) :
    (∃ storage, placeOf? kernel words floor reach region = some storage ∧
        IsLeast {start | FeasibleIn kernel words floor reach region start} storage.start) ∨
      placeOf? kernel words floor reach region = none ∧
        ∀ start, ¬FeasibleIn kernel words floor reach region start := by
  have hiff : ∀ start, pageBytes ∣ start → (FeasibleIn kernel words floor reach region start ↔
      lowest floor region ≤ start ∧ start + span words ≤ highest reach region ∧
        (start + span words ≤ kernel.start.toNat ∨ kernel.pageStop.toNat ≤ start)) := fun _ =>
    feasibleIn_iff hkernel hwords hbase hfloor hstop
  have hlowest := dvd_lowest floor region
  have hleast : ∀ start, FeasibleIn kernel words floor reach region start →
      lowest floor region ≤ start := fun start h => ((hiff start h.aligned).mp h).1
  unfold placeOf?
  by_cases hover : kernel.overlaps region.base region.stop = true
  · rw [if_pos hover]
    by_cases hbefore : FitsBefore kernel words floor reach region
    · rw [if_pos hbefore]
      refine .inl ⟨⟨lowest floor region, words, .beforeKernel⟩, rfl, ?_⟩
      dsimp only
      exact ⟨(hiff _ hlowest).mpr ⟨Nat.le_refl _, hbefore.1, .inl hbefore.2⟩, hleast⟩
    rw [if_neg hbefore]
    have hle : ∀ start, FeasibleIn kernel words floor reach region start →
        behind kernel floor region ≤ start := fun start h =>
      have ⟨hlow, hhigh, hsides⟩ := (hiff start h.aligned).mp h
      behind_le_of_feasible hbefore hlow hhigh hsides
    split_ifs with hfits
    · refine .inl ⟨_, rfl, ?_, hle⟩
      exact (hiff _ (dvd_behind kernel floor region)).mpr
        ⟨Nat.le_max_right _ _, hfits, .inr (Nat.le_max_left _ _)⟩
    · refine .inr ⟨rfl, fun start h => hfits ?_⟩
      have hhigh := ((hiff start h.aligned).mp h).2.1
      exact Nat.le_trans (Nat.add_le_add_right (hle start h) _) hhigh
  · rw [if_neg hover]
    split_ifs with hfits
    · refine .inl ⟨⟨lowest floor region, words, .disjointFromKernel⟩, rfl, ?_⟩
      dsimp only
      have hsides := sides_of_not_overlaps hbase hfloor hstop hover hlowest (Nat.le_refl _) hfits
      exact ⟨(hiff _ hlowest).mpr ⟨Nat.le_refl _, hfits, hsides⟩, hleast⟩
    · refine .inr ⟨rfl, fun start h => hfits ?_⟩
      have hhigh := ((hiff start h.aligned).mp h).2.1
      exact Nat.le_trans (Nat.add_le_add_right (hleast start h) _) hhigh

/-- The first place of regions in order is the least feasible address in any of them. -/
theorem isLeast_findSome? (reach : Nat) (hkernel : kernel.start.toNat < kernel.stop.toNat)
    (hwords : 0 < span words) (hordered : MemoryMap.Ordered regions)
    (hbases : ∀ region ∈ regions, region.base ≤ 2 ^ 63) (hfloor : floor ≤ 2 ^ 63)
    (hstop : kernel.stop.toNat ≤ 2 ^ 63) :
    (∃ storage, regions.findSome? (placeOf? kernel words floor reach) = some storage ∧
        IsLeast {start | ∃ region ∈ regions, FeasibleIn kernel words floor reach region start}
          storage.start) ∨
      regions.findSome? (placeOf? kernel words floor reach) = none ∧
        ¬∃ start, ∃ region ∈ regions, FeasibleIn kernel words floor reach region start := by
  induction regions with
  | nil => exact .inr ⟨rfl, by simp⟩
  | cons region rest ih =>
    obtain ⟨hregion, hrest⟩ := List.pairwise_cons.mp hordered
    obtain ⟨hbase, hothers⟩ := List.forall_mem_cons.mp hbases
    rcases isLeast_placeOf? reach hkernel hwords hbase hfloor hstop with
      ⟨storage, hplace, hfeasible, hleast⟩ | ⟨hplace, hnone⟩
    · refine .inl ⟨storage, by rw [List.findSome?_cons, hplace], ⟨region, .head _, hfeasible⟩, ?_⟩
      rintro start ⟨other, hm, h⟩
      rcases List.mem_cons.mp hm with rfl | hm
      · exact hleast h
      · -- Addresses of regions further on are behind this one.
        have hstop := hfeasible.le_stop
        have hbase := h.base_le
        have hle := hregion other hm
        omega
    · have hsame : ∀ start,
          (∃ other ∈ region :: rest, FeasibleIn kernel words floor reach other start) ↔
            ∃ other ∈ rest, FeasibleIn kernel words floor reach other start := by
        intro start
        simp only [List.mem_cons, exists_eq_or_imp, hnone start, false_or]
      simp only [List.findSome?_cons, hplace, hsame]
      exact ih hrest hothers

/-! ## How long the bitmaps are -/

/-- Bitmaps that have a word take up a page. -/
theorem span_pos (h : 0 < words) : 0 < span words := by
  rw [span, show pageBytes = 4096 from rfl]
  unfold roundUp roundDown
  split_ifs <;> omega

/-- The bitmaps of all frames below 4 GiB take four megabytes at most. -/
theorem span_le (h : words ≤ 2 ^ 20) : words * 4 ≤ span words ∧ span words ≤ 2 ^ 22 := by
  rw [span, show pageBytes = 4096 from rfl]
  unfold roundUp roundDown
  rw [if_pos (by omega)]
  omega

/-- A search stays within a word as long as everything that it starts from is far enough from the
end. -/
theorem not_searchOverruns (reach : Nat) (hwords : words ≤ 2 ^ 20)
    (hbases : ∀ region ∈ regions, region.base ≤ 2 ^ 64 - 2 ^ 23) (hfloor : floor ≤ 2 ^ 64 - 2 ^ 23)
    (hstop : kernel.stop.toNat ≤ 2 ^ 64 - 2 ^ 23) :
    ¬SearchOverruns kernel words floor reach regions := by
  have hspan := (span_le hwords).2
  have hpage : kernel.pageStop.toNat ≤ kernel.stop.toNat + 4095 := by
    rw [toNat_pageStop]
    exact roundUp_le_add _
  induction regions with
  | nil => exact id
  | cons region rest ih =>
    obtain ⟨hbase, hrest⟩ := List.forall_mem_cons.mp hbases
    have hlowest : lowest floor region ≤ max region.base floor + 4095 := roundUp_le_add _
    rintro (hruns | ⟨-, hruns⟩)
    · unfold Overruns behind at hruns
      omega
    · exact ih hrest hruns

end BitmapStorage

end BootMemory
