import BootMemory.MemoryMap.OfFirmware
import BootMemory.Proofs.Outcome
import Mathlib.Data.List.ReduceOption
import Mathlib.Tactic.SplitIfs

/-!
# Every bound checked

Where a memory map is made, most regions are written down by their base and the difference of two
bounds, and most ends are taken as numbers without a limit. The definitions here make the same map
with every step checked: a region that is made from two bounds faults if they are out of order, and
an end faults if it does not fit a word. Each checked step gives what the plain one gives, so the
plain one never relies on a difference that would be negative or an end that would run over.
-/

set_option autoImplicit false

namespace BootMemory

/-- A step that always has a value may run over a list. -/
theorem Outcome.mapM_of_ok {ε α β : Type} {f : α → Except ε β} {g : α → β} {xs : List α}
    (h : ∀ x ∈ xs, f x = .ok (g x)) : xs.mapM f = .ok (xs.map g) := by
  induction xs with
  | nil => rfl
  | cons x rest ih =>
    obtain ⟨hx, hrest⟩ := List.forall_mem_cons.mp h
    rw [List.mapM_cons, hx, ok_bind, ih hrest, ok_bind, pure_eq_ok, List.map_cons]

namespace MemoryMap

namespace Checked

/-! ## The checked steps -/

/-- What is left of a descriptor under an address limit. -/
def keep (limit : Nat) (descriptor : Descriptor) : Except Fault (Option Region) := do
  let base := descriptor.base.toNat
  if descriptor.length = 0 ∨ limit ≤ base then
    return none
  else
    let region ← Region.ofBounds base (min descriptor.stop limit) descriptor.kind
    return some region

/-- All bases and ends of a list, in ascending order. -/
def bounds : List Region → Except Fault (List Nat)
  | [] => .ok []
  | entry :: entries => do
    let rest ← bounds entries
    let stop ← entry.end?
    return insertBound entry.base (insertBound stop rest)

/-- The pieces between consecutive bounds, each with its strictest kind. -/
def pieces (entries : List Region) : List Nat → Except Fault (List Region)
  | low :: high :: rest => do
    let piece ← Region.ofBounds low high (kindOver entries low high)
    let others ← pieces entries (high :: rest)
    return piece :: others
  | _ => .ok []

/-- What a policy keeps of regions in address order. -/
def aboveThreshold (threshold : Nat) (regions : List Region) : Except Fault (List Region) := do
  let kept ← regions.mapM fun region => do
    let stop ← region.end?
    return if threshold < stop then some region else none
  let clipped ← kept.reduceOption.mapM fun region => do
    let stop ← region.end?
    Region.ofBounds (max region.base threshold) stop region.kind
  match kept.reduceOption with
  | [] => return []
  | first :: _ =>
    if threshold < first.base then
      let hole ← Region.ofBounds threshold first.base .unspecified
      return hole :: clipped
    else
      return clipped

/-- What a region becomes when a range is reserved. -/
def cut (first stop : Nat) (region : Region) : Except Fault (List Region) := do
  if ← region.overlaps first stop then
    let regionStop ← region.end?
    let low := max region.base first
    let high := min regionStop stop
    let below ← Region.ofBounds region.base low region.kind
    let inside ← Region.ofBounds low high .reserved
    let above ← Region.ofBounds high regionStop region.kind
    return [below, inside, above]
  else
    return [region]

/-- The regions with a policy applied. -/
def applyPolicy (policy : LowMemoryPolicy) (regions : List Region) :
    Except Fault (List Region) := do
  let above ← aboveThreshold policy.threshold regions
  let spliced ← Region.coalesce (policy.table ++ above)
  policy.forced.foldlM (fun done hole => do
    let stop ← hole.end?
    let pieces ← done.mapM (cut hole.base stop)
    Region.coalesce pieces.flatten) spliced

/-- The memory map that a firmware list describes under a configuration. -/
def ofFirmware (descriptors : List Descriptor) (config : MapConfig) :
    Except Fault (Except MemoryMapError MemoryMap) := do
  let kept ← descriptors.mapM (keep config.addressLimit)
  let entries := kept.reduceOption
  if entries.isEmpty then
    return .error .empty
  let cuts ← bounds entries
  let pieces ← pieces entries cuts
  let resolved ← Region.coalesce pieces
  let regions ← match config.lowMemory with
    | none => pure resolved
    | some policy => applyPolicy policy resolved
  if regions.any (·.kind == .available) then
    let map ← ofRegions regions (observed descriptors)
    return .ok map
  else
    return .error .noUsableMemory

end Checked

/-! ## They give the same -/

/-- Every descriptor is clipped without a fault. -/
theorem Checked.keep_eq (limit : Nat) (descriptor : Descriptor) :
    keep limit descriptor = .ok (keep? limit descriptor) := by
  unfold keep keep?
  simp only
  split_ifs with hout
  · rfl
  · rw [not_or, Nat.not_le] at hout
    have hword := descriptor.base.toNat_lt
    have hle : descriptor.base.toNat ≤ min descriptor.stop limit := by
      unfold Descriptor.stop Word.addSaturating Word.max
      omega
    rw [Region.ofBounds_of_le _ hle, Outcome.ok_bind, Outcome.pure_eq_ok]

/-- The descriptors that are kept, with every bound checked. -/
theorem Checked.entries_eq (limit : Nat) (descriptors : List Descriptor) :
    ∃ kept, descriptors.mapM (keep limit) = .ok kept ∧
      kept.reduceOption = descriptors.filterMap (keep? limit) := by
  refine ⟨_, Outcome.mapM_of_ok fun descriptor _ => keep_eq limit descriptor, ?_⟩
  rw [List.reduceOption, List.filterMap_map, Function.id_comp]

/-- The bounds of entries whose ends fit a word are found without a fault. -/
theorem Checked.bounds_eq {entries : List Region}
    (hstop : ∀ entry ∈ entries, entry.stop < 2 ^ 64) :
    bounds entries = .ok (MemoryMap.bounds entries) := by
  induction entries with
  | nil => rfl
  | cons entry rest ih =>
    obtain ⟨hentry, hrest⟩ := List.forall_mem_cons.mp hstop
    rw [bounds, ih hrest, Outcome.ok_bind, Region.end?_of_lt hentry, Outcome.ok_bind]
    rfl

/-- Between ascending cuts the pieces are made without a fault. -/
theorem Checked.pieces_eq (entries : List Region) {cuts : List Nat}
    (hcuts : cuts.Pairwise (· < ·)) :
    pieces entries cuts = .ok (MemoryMap.pieces entries cuts) := by
  induction cuts with
  | nil => rfl
  | cons low others ih =>
    cases others with
    | nil => rfl
    | cons high rest =>
      obtain ⟨hlow, hothers⟩ := List.pairwise_cons.mp hcuts
      have hle : low ≤ high := Nat.le_of_lt (hlow high List.mem_cons_self)
      rw [pieces, Region.ofBounds_of_le _ hle, Outcome.ok_bind, ih hothers, Outcome.ok_bind]
      rfl

/-- Regions whose ends fit a word are cut off at the threshold without a fault. -/
theorem Checked.aboveThreshold_eq {threshold : Nat} {regions : List Region}
    (hstop : ∀ region ∈ regions, region.stop < 2 ^ 64) :
    aboveThreshold threshold regions = .ok (MemoryMap.aboveThreshold threshold regions) := by
  have hkept : (regions.mapM fun region => do
        let stop ← region.end?
        return if threshold < stop then some region else none) =
      .ok (regions.map (Option.guard fun region => decide (threshold < region.stop))) := by
    refine Outcome.mapM_of_ok fun region hm => ?_
    rw [Region.end?_of_lt (hstop region hm), Outcome.ok_bind, Outcome.pure_eq_ok]
    simp only [Option.guard, decide_eq_true_eq]
  have hfilter :
      (regions.map (Option.guard fun region => decide (threshold < region.stop))).reduceOption =
        regions.filter (threshold < ·.stop) := by
    rw [List.reduceOption, List.filterMap_map, Function.id_comp, List.filterMap_eq_filter]
  unfold aboveThreshold MemoryMap.aboveThreshold
  rw [hkept, Outcome.ok_bind, hfilter]
  have hclip : ((regions.filter (threshold < ·.stop)).mapM fun region => do
        let stop ← region.end?
        Region.ofBounds (max region.base threshold) stop region.kind) =
      .ok ((regions.filter (threshold < ·.stop)).map fun region =>
        ⟨max region.base threshold, region.stop - max region.base threshold, region.kind⟩) := by
    refine Outcome.mapM_of_ok fun region hm => ?_
    obtain ⟨hm, hlt⟩ := List.mem_filter.mp hm
    rw [decide_eq_true_eq] at hlt
    have hle : max region.base threshold ≤ region.stop :=
      Nat.max_le.mpr ⟨Nat.le_add_right _ _, Nat.le_of_lt hlt⟩
    rw [Region.end?_of_lt (hstop region hm), Outcome.ok_bind, Region.ofBounds_of_le _ hle]
  rw [hclip, Outcome.ok_bind]
  cases regions.filter (threshold < ·.stop) with
  | nil => rfl
  | cons first rest =>
    simp only
    split_ifs with hgap
    · rw [Region.ofBounds_of_le _ (Nat.le_of_lt hgap)]
      rfl
    · rfl

/-- A range with its bounds in order is cut out of a region with the same outcome, faults
included. -/
theorem Checked.cut_eq {first stop : Nat} (hle : first ≤ stop) (region : Region) :
    cut first stop region = Region.cut first stop region := by
  unfold cut Region.cut Region.overlaps
  cases hend : region.end? with
  | error fault => rfl
  | ok regionStop =>
    obtain ⟨-, rfl⟩ := Region.end?_eq_ok_iff.mp hend
    simp only [Outcome.ok_bind, Outcome.pure_eq_ok, Bool.and_eq_true, decide_eq_true_eq]
    split_ifs with hmeets
    · have hbase : region.base ≤ region.stop := Nat.le_add_right _ _
      rw [Region.ofBounds_of_le _ (by omega), Outcome.ok_bind,
        Region.ofBounds_of_le _ (by omega), Outcome.ok_bind,
        Region.ofBounds_of_le _ (by omega), Outcome.ok_bind]
    · rfl

/-- A policy is applied to regions whose ends fit a word with the same outcome, faults included.
-/
theorem Checked.applyPolicy_eq {policy : LowMemoryPolicy} {regions : List Region}
    (hstop : ∀ region ∈ regions, region.stop < 2 ^ 64) :
    applyPolicy policy regions = MemoryMap.applyPolicy policy regions := by
  unfold applyPolicy MemoryMap.applyPolicy
  rw [aboveThreshold_eq hstop, Outcome.ok_bind]
  congr 1
  funext spliced
  congr 1
  funext done hole
  cases hend : hole.end? with
  | error fault => rfl
  | ok stop =>
    obtain ⟨-, rfl⟩ := Region.end?_eq_ok_iff.mp hend
    have hle : hole.base ≤ hole.stop := Nat.le_add_right _ _
    simp only [Outcome.ok_bind, Region.reserve, funext (cut_eq hle)]

end MemoryMap

end BootMemory
