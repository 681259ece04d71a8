import BootMemory.MemoryMap.Coalesce
import BootMemory.Proofs.Outcome
import Mathlib.Tactic.SplitIfs
import Mathlib.Tactic.Tauto

/-!
# What regions claim for an address

A list of regions claims a kind for an address if one of its regions has that kind and covers
the address. The steps that build a memory map are functions on lists, but what matters of
them is what they do to the claims: coalescing does nothing to them, and reserving a range
replaces the claims inside the range.
-/

set_option autoImplicit false

namespace BootMemory

/-- Whether an address lies in a region. -/
def Region.Covers (region : Region) (addr : Nat) : Prop :=
  region.base ≤ addr ∧ addr < region.stop

/-- Whether one of the regions covers an address and has a kind. -/
def Claims (regions : List Region) (addr : Nat) (kind : MemoryKind) : Prop :=
  ∃ region ∈ regions, region.Covers addr ∧ region.kind = kind

section Claims

variable {addr : Nat} {kind : MemoryKind} {regions : List Region}

/-- Without regions nothing is claimed. -/
@[simp] theorem claims_nil : ¬ Claims [] addr kind := by
  rintro ⟨_, hm, -⟩
  exact nomatch hm

/-- The first region claims its kind for the addresses that it covers. -/
@[simp] theorem claims_cons (region : Region) : Claims (region :: regions) addr kind ↔
    (region.Covers addr ∧ region.kind = kind) ∨ Claims regions addr kind := by
  simp [Claims]

/-- Two lists claim what each of them does. -/
theorem claims_append (first second : List Region) : Claims (first ++ second) addr kind ↔
    Claims first addr kind ∨ Claims second addr kind := by
  induction first with
  | nil => simp
  | cons region rest ih => rw [List.cons_append, claims_cons, claims_cons, ih, or_assoc]

/-- The order of regions does not matter to what they claim. -/
theorem claims_perm {other : List Region} (h : other.Perm regions) :
    Claims other addr kind ↔ Claims regions addr kind := by
  unfold Claims
  simp only [h.mem_iff]

/-- The claims of lists of parts are those of the parts. -/
theorem claims_flatten (parts : List (List Region)) :
    Claims parts.flatten addr kind ↔ ∃ part ∈ parts, Claims part addr kind := by
  induction parts with
  | nil => simp
  | cons part rest ih => simp [claims_append, ih]

end Claims

namespace Region

variable {addr : Nat} {kind : MemoryKind}

/-- A region without bytes covers nothing. -/
theorem not_covers_of_empty {region : Region} (h : region.length = 0) : ¬ region.Covers addr := by
  rintro ⟨hlow, hhigh⟩
  unfold stop at hhigh
  omega

/-! ## Coalescing -/

/-- How pushing a region ends: it is left out if it is empty, or joined to the last region done if
this one touches it and is of its kind, or put behind it. -/
inductive Pushed (region : Region) : List Region → List Region → Prop
  | skipped {done : List Region} (empty : region.length = 0) : Pushed region done done
  | joined {last : Region} {earlier : List Region} (pos : 0 < region.length)
      (kind_eq : last.kind = region.kind) (touch : last.stop = region.base) :
      Pushed region (last :: earlier)
        ({ last with length := last.length + region.length } :: earlier)
  | behind {done : List Region} (pos : 0 < region.length) : Pushed region done (region :: done)

/-- Pushing a region, if it does not fault, ends in one of these ways. -/
theorem pushed_of_push {done out : List Region} {region : Region}
    (h : push done region = .ok out) : Pushed region done out := by
  unfold push at h
  by_cases hempty : region.length = 0
  · rw [if_pos hempty] at h
    cases h
    exact .skipped hempty
  rw [if_neg hempty] at h
  have hpos : 0 < region.length := Nat.pos_of_ne_zero hempty
  cases done with
  | nil =>
    cases h
    exact .behind hpos
  | cons last earlier =>
    simp only at h
    by_cases hkind : last.kind = region.kind
    · rw [if_pos hkind] at h
      obtain ⟨stop, hstop, h⟩ := Outcome.bind_eq_ok.mp h
      obtain ⟨-, rfl⟩ := end?_eq_ok_iff.mp hstop
      by_cases htouch : last.stop = region.base
      · rw [if_pos htouch] at h
        obtain ⟨length, hlength, h⟩ := Outcome.bind_eq_ok.mp h
        obtain ⟨-, rfl⟩ := Word.add_eq_ok_iff.mp hlength
        cases h
        exact .joined hpos hkind htouch
      · rw [if_neg htouch] at h
        cases h
        exact .behind hpos
    · rw [if_neg hkind] at h
      cases h
      exact .behind hpos

/-- Adding a region, as one with the last if they touch, adds what it claims. -/
theorem claims_push {done out : List Region} {region : Region} (h : push done region = .ok out) :
    Claims out addr kind ↔ Claims done addr kind ∨ (region.Covers addr ∧ region.kind = kind) := by
  cases pushed_of_push h with
  | skipped empty =>
    have hnot : ¬region.Covers addr := not_covers_of_empty empty
    tauto
  | @joined last earlier pos kind_eq touch =>
    -- The joined region covers what the two covered.
    have hcovers : ({ last with length := last.length + region.length } : Region).Covers addr ↔
        last.Covers addr ∨ region.Covers addr := by
      unfold Covers
      rw [stop_joined touch]
      simp only
      unfold stop at *
      omega
    simp only [claims_cons, hcovers, ← kind_eq]
    tauto
  | behind pos => rw [claims_cons, or_comm]

/-- Coalescing pushes the regions one after the other: what holds of nothing done and all regions
to come, and is kept by a push, holds of all regions done. The regions done are newest first. -/
theorem coalesce_induction {P : List Region → List Region → Prop} {regions out : List Region}
    (hcoalesce : coalesce regions = .ok out) (hstart : P [] regions)
    (hpush : ∀ done out region rest, push done region = .ok out → P done (region :: rest) →
      P out rest) : P out.reverse [] := by
  obtain ⟨newestFirst, hfold, h⟩ := Outcome.bind_eq_ok.mp hcoalesce
  cases h
  rw [List.reverse_reverse]
  suffices hgeneral : ∀ done, regions.foldlM push done = .ok newestFirst → P done regions →
      P newestFirst [] from hgeneral [] hfold hstart
  clear hcoalesce hfold hstart
  induction regions with
  | nil =>
    intro done hfold hdone
    cases hfold
    exact hdone
  | cons region rest ih =>
    intro done hfold hdone
    rw [List.foldlM_cons] at hfold
    obtain ⟨middle, hmiddle, hrest⟩ := Outcome.bind_eq_ok.mp hfold
    exact ih middle hrest (hpush done middle region rest hmiddle hdone)

/-- Coalescing does not change what is claimed. -/
theorem claims_coalesce {regions out : List Region} (h : coalesce regions = .ok out) :
    Claims out addr kind ↔ Claims regions addr kind := by
  have hall : Claims regions addr kind ↔
      Claims out.reverse addr kind ∨ Claims [] addr kind := by
    refine coalesce_induction
      (P := fun done rest =>
        Claims regions addr kind ↔ Claims done addr kind ∨ Claims rest addr kind)
      h (by simp) ?_
    intro done middle region rest hpush hdone
    rw [hdone, claims_push hpush, claims_cons, or_assoc]
  rw [claims_perm (List.reverse_perm out)] at hall
  simpa using hall.symm

/-! ## Reserving a range -/

/-- What a region claims for an address when a range is reserved. -/
def kindUnder (first stop addr : Nat) (kind : MemoryKind) : MemoryKind :=
  if first ≤ addr ∧ addr < stop then .reserved else kind

/-- A region out of which a range is cut claims the same addresses, as reserved inside the range.
-/
theorem claims_cut {first stop : Nat} {region : Region} {parts : List Region}
    (h : cut first stop region = .ok parts) : Claims parts addr kind ↔
      region.Covers addr ∧ kindUnder first stop addr region.kind = kind := by
  unfold cut overlaps at h
  obtain ⟨meets, hmeets, h⟩ := Outcome.bind_eq_ok.mp h
  obtain ⟨regionStop, hstop, hmeets⟩ := Outcome.bind_eq_ok.mp hmeets
  obtain ⟨-, rfl⟩ := end?_eq_ok_iff.mp hstop
  rw [Outcome.pure_eq_ok, Except.ok.injEq] at hmeets
  unfold kindUnder
  cases meets with
  | true =>
    simp only [Bool.and_eq_true, decide_eq_true_eq] at hmeets
    simp only [↓reduceIte, hstop, Outcome.ok_bind, Outcome.pure_eq_ok, Except.ok.injEq] at h
    subst h
    simp only [claims_cons, claims_nil, or_false]
    unfold Covers Region.stop at *
    simp only
    split_ifs with hin
    · constructor
      · rintro (h | h | h)
        · omega
        · exact ⟨by omega, h.2⟩
        · omega
      · exact fun h => .inr (.inl ⟨by omega, h.2⟩)
    · constructor
      · rintro (h | h | h)
        · exact ⟨by omega, h.2⟩
        · omega
        · exact ⟨by omega, h.2⟩
      · intro h
        by_cases hbelow : addr < first
        · exact .inl ⟨by omega, h.2⟩
        · exact .inr (.inr ⟨by omega, h.2⟩)
  | false =>
    simp only [Bool.and_eq_false_iff, decide_eq_false_iff_not] at hmeets
    simp only [Bool.false_eq_true, ↓reduceIte, Outcome.pure_eq_ok, Except.ok.injEq] at h
    subst h
    simp only [claims_cons, claims_nil, or_false]
    apply and_congr_right
    intro hcovers
    unfold Covers at hcovers
    rw [if_neg (by omega)]

/-- Reserving a range changes the claims inside it and no others. -/
theorem claims_reserve {first stop : Nat} {regions out : List Region}
    (hreserve : reserve first stop regions = .ok out) : Claims out addr kind ↔
      ∃ before, Claims regions addr before ∧ kindUnder first stop addr before = kind := by
  obtain ⟨parts, hparts, hcoalesce⟩ := Outcome.bind_eq_ok.mp hreserve
  rw [claims_coalesce hcoalesce, claims_flatten]
  clear hreserve hcoalesce
  induction regions generalizing parts with
  | nil =>
    cases hparts
    simp
  | cons region rest ih =>
    rw [List.mapM_cons] at hparts
    obtain ⟨here, hhere, hparts⟩ := Outcome.bind_eq_ok.mp hparts
    obtain ⟨others, hothers, hparts⟩ := Outcome.bind_eq_ok.mp hparts
    cases hparts
    simp only [List.mem_cons, exists_eq_or_imp, claims_cut hhere, ih others hothers,
      claims_cons]
    constructor
    · rintro (⟨hcovers, hkind⟩ | ⟨before, hclaims, hkind⟩)
      · exact ⟨region.kind, .inl ⟨hcovers, rfl⟩, hkind⟩
      · exact ⟨before, .inr hclaims, hkind⟩
    · rintro ⟨before, ⟨hcovers, rfl⟩ | hclaims, hkind⟩
      · exact .inl ⟨hcovers, hkind⟩
      · exact .inr ⟨before, hclaims, hkind⟩

end Region

end BootMemory
