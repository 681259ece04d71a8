import BootMemory.MemoryMap.OfFirmware
import BootMemory.Proofs.MemoryMap.Basic
import BootMemory.Proofs.MemoryMap.Claims

/-!
# What a normalized map claims

The pieces between the bounds of the firmware's entries claim for each address the strictest
kind of the entries that cover it (`claims_pieces`). A policy puts its table below the
threshold and reserves its forced ranges, and leaves other claims alone. So an address that
the map claims to be RAM is RAM for every descriptor that covers it, or for the table
(`ram_of_claims`).
-/

set_option autoImplicit false

namespace BootMemory

/-- Whether an address lies in a descriptor. -/
def Descriptor.Covers (descriptor : Descriptor) (addr : Nat) : Prop :=
  descriptor.base.toNat ≤ addr ∧ addr < descriptor.base.toNat + descriptor.length.toNat

namespace MemoryMap

variable {addr : Nat} {kind : MemoryKind}

/-! ## The bounds -/

/-- Inserting a bound adds it to the bounds and takes none away. -/
theorem mem_insertBound {bound other : Nat} {bounds : List Nat} :
    other ∈ insertBound bound bounds ↔ other = bound ∨ other ∈ bounds := by
  induction bounds with
  | nil => simp [insertBound]
  | cons first rest ih =>
    unfold insertBound
    split_ifs with hlt heq
    · simp
    · subst heq
      simp
    · simp only [List.mem_cons, ih]
      tauto

/-- Inserting a bound keeps the bounds strictly ascending. -/
theorem pairwise_insertBound {bound : Nat} {bounds : List Nat} (h : bounds.Pairwise (· < ·)) :
    (insertBound bound bounds).Pairwise (· < ·) := by
  induction bounds with
  | nil => exact List.pairwise_singleton _ _
  | cons first rest ih =>
    obtain ⟨hfirst, hrest⟩ := List.pairwise_cons.mp h
    unfold insertBound
    split_ifs with hlt heq
    · refine List.pairwise_cons.mpr ⟨?_, h⟩
      intro other hm
      rcases List.mem_cons.mp hm with rfl | hm
      · exact hlt
      · exact Nat.lt_trans hlt (hfirst other hm)
    · exact h
    · refine List.pairwise_cons.mpr ⟨?_, ih hrest⟩
      intro other hm
      rcases mem_insertBound.mp hm with rfl | hm
      · omega
      · exact hfirst other hm

/-- The bounds are where entries start and end. -/
theorem mem_bounds {entries : List Region} {bound : Nat} : bound ∈ bounds entries ↔
    ∃ entry ∈ entries, bound = entry.base ∨ bound = entry.stop := by
  unfold bounds
  induction entries with
  | nil => simp
  | cons entry rest ih =>
    simp only [List.foldr_cons, mem_insertBound, ih, List.mem_cons, exists_eq_or_imp, or_assoc]

/-- The bounds ascend strictly. -/
theorem pairwise_bounds (entries : List Region) : (bounds entries).Pairwise (· < ·) := by
  unfold bounds
  induction entries with
  | nil => exact List.Pairwise.nil
  | cons entry rest ih => exact pairwise_insertBound (pairwise_insertBound ih)

/-! ## The strictest kind -/

/-- The strictest kind of a list is that of one of its regions, if it has any. -/
theorem foldl_stricter (entries : List Region) (start : MemoryKind) :
    let strictest := entries.foldl (fun kind entry => kind.stricter entry.kind) start
    (strictest = start ∨ ∃ entry ∈ entries, entry.kind = strictest) ∧
      start.precedence ≤ strictest.precedence ∧
      ∀ entry ∈ entries, entry.kind.precedence ≤ strictest.precedence := by
  induction entries generalizing start with
  | nil => exact ⟨.inl rfl, Nat.le_refl _, fun _ hm => nomatch hm⟩
  | cons entry rest ih =>
    obtain ⟨hfrom, hstart, hrest⟩ := ih (start.stricter entry.kind)
    have hboth : start.precedence ≤ (start.stricter entry.kind).precedence ∧
        entry.kind.precedence ≤ (start.stricter entry.kind).precedence := by
      unfold MemoryKind.stricter
      split_ifs <;> omega
    refine ⟨?_, Nat.le_trans hboth.1 hstart, ?_⟩
    · rcases hfrom with hfrom | ⟨other, hm, hkind⟩
      · rw [List.foldl_cons, hfrom]
        unfold MemoryKind.stricter
        split_ifs
        · exact .inr ⟨entry, List.mem_cons_self, rfl⟩
        · exact .inl rfl
      · exact .inr ⟨other, List.mem_cons_of_mem _ hm, hkind⟩
    · exact List.forall_mem_cons.mpr ⟨Nat.le_trans hboth.2 hstart, hrest⟩

/-- The strictest kind of the entries that cover an address. -/
def kindAt (entries : List Region) (addr : Nat) : MemoryKind :=
  (entries.filter fun entry => entry.base ≤ addr && addr < entry.stop).foldl
    (fun kind entry => kind.stricter entry.kind) .unspecified

/-- The entries that are selected for an address are those that cover it. -/
theorem mem_covering {entries : List Region} {entry : Region} :
    entry ∈ entries.filter (fun entry => entry.base ≤ addr && addr < entry.stop) ↔
      entry ∈ entries ∧ entry.Covers addr := by
  simp [Region.Covers]

/-- Every entry that covers an address is at most as strict as the kind of the address. -/
theorem precedence_le_kindAt {entries : List Region} {entry : Region} (hm : entry ∈ entries)
    (hcovers : entry.Covers addr) : entry.kind.precedence ≤ (kindAt entries addr).precedence :=
  (foldl_stricter _ _).2.2 entry (mem_covering.mpr ⟨hm, hcovers⟩)

/-- A kind other than the one of a hole is that of an entry which covers the address. -/
theorem exists_of_kindAt {entries : List Region} (h : kindAt entries addr ≠ .unspecified) :
    ∃ entry ∈ entries, entry.Covers addr ∧ entry.kind = kindAt entries addr := by
  obtain ⟨entry, hm, hkind⟩ := (foldl_stricter _ _).1.resolve_left h
  obtain ⟨hm, hcovers⟩ := mem_covering.mp hm
  exact ⟨entry, hm, hcovers, hkind⟩

/-! ## The pieces -/

/-- Whether a bound is one of the cuts or lies below all of them. -/
def Known (cuts : List Nat) (bound : Nat) : Prop := bound ∈ cuts ∨ ∀ cut ∈ cuts, bound < cut

/-- A bound that is known is not inside the first piece, and is known to the others. -/
theorem Known.aside {low high bound : Nat} {rest : List Nat}
    (hcuts : (low :: high :: rest).Pairwise (· < ·)) (h : Known (low :: high :: rest) bound) :
    (bound ≤ low ∨ high ≤ bound) ∧ Known (high :: rest) bound := by
  obtain ⟨hlow, hothers⟩ := List.pairwise_cons.mp hcuts
  rcases h with hm | hbelow
  · rcases List.mem_cons.mp hm with rfl | hm
    · exact ⟨.inl (Nat.le_refl _), .inr hlow⟩
    · refine ⟨.inr ?_, .inl hm⟩
      rcases List.mem_cons.mp hm with rfl | hm
      · exact Nat.le_refl _
      · exact Nat.le_of_lt ((List.pairwise_cons.mp hothers).1 bound hm)
  · exact ⟨.inl (Nat.le_of_lt (hbelow low List.mem_cons_self)),
      .inr fun cut hm => hbelow cut (List.mem_cons_of_mem _ hm)⟩

/-- If no bound of an entry lies inside a piece, the entries that cover the piece are those that
cover any address of it. -/
theorem kindOver_eq {entries : List Region} {low high : Nat} (hlow : low ≤ addr)
    (hhigh : addr < high) (hbase : ∀ entry ∈ entries, entry.base ≤ low ∨ high ≤ entry.base)
    (hstop : ∀ entry ∈ entries, entry.stop ≤ low ∨ high ≤ entry.stop) :
    kindOver entries low high = kindAt entries addr := by
  unfold kindOver kindAt
  congr 1
  apply List.filter_congr
  intro entry hm
  have := hbase entry hm
  have := hstop entry hm
  rw [Bool.eq_iff_iff]
  simp only [Bool.and_eq_true, decide_eq_true_eq]
  omega

/-- Between the first and the last cut, the pieces claim the strictest kind of each address. -/
theorem claims_pieces {entries : List Region} {cuts : List Nat} (hcuts : cuts.Pairwise (· < ·))
    (hknown : ∀ entry ∈ entries, Known cuts entry.base ∧ Known cuts entry.stop) :
    Claims (pieces entries cuts) addr kind ↔
      (∃ cut ∈ cuts, cut ≤ addr) ∧ (∃ cut ∈ cuts, addr < cut) ∧ kindAt entries addr = kind := by
  induction cuts with
  | nil => simp [pieces]
  | cons low others ih =>
    obtain ⟨hlow, hothers⟩ := List.pairwise_cons.mp hcuts
    cases others with
    | nil =>
      simp only [pieces, claims_nil, List.mem_singleton, exists_eq_left, false_iff]
      omega
    | cons high rest =>
      have hlt := hlow high List.mem_cons_self
      have hrest := ih hothers fun entry hm =>
        ⟨((hknown entry hm).1.aside hcuts).2, ((hknown entry hm).2.aside hcuts).2⟩
      have hkind : low ≤ addr → addr < high →
          kindOver entries low high = kindAt entries addr := fun hle hlt' =>
        kindOver_eq hle hlt' (fun entry hm => ((hknown entry hm).1.aside hcuts).1)
          fun entry hm => ((hknown entry hm).2.aside hcuts).1
      rw [pieces, claims_cons, hrest]
      have hcovers : Region.Covers ⟨low, high - low, kindOver entries low high⟩ addr ↔
          low ≤ addr ∧ addr < high := by
        unfold Region.Covers Region.stop
        simp only
        omega
      rw [hcovers]
      constructor
      · rintro (⟨⟨hle, hlt'⟩, rfl⟩ | ⟨⟨cut, hm, hle⟩, ⟨cut', hm', hlt'⟩, hkind'⟩)
        · exact ⟨⟨low, by simp, hle⟩, ⟨high, by simp, hlt'⟩, (hkind hle hlt').symm⟩
        · exact ⟨⟨cut, List.mem_cons_of_mem _ hm, hle⟩,
            ⟨cut', List.mem_cons_of_mem _ hm', hlt'⟩, hkind'⟩
      · rintro ⟨⟨cut, hm, hle⟩, ⟨cut', hm', hlt'⟩, rfl⟩
        by_cases hbelow : addr < high
        · left
          have hlowle : low ≤ addr := by
            rcases List.mem_cons.mp hm with rfl | hm
            · exact hle
            · have := hlow cut hm
              omega
          exact ⟨⟨hlowle, hbelow⟩, hkind hlowle hbelow⟩
        · right
          refine ⟨⟨high, List.mem_cons_self, Nat.le_of_not_lt hbelow⟩, ⟨cut', ?_, hlt'⟩, rfl⟩
          rcases List.mem_cons.mp hm' with rfl | hm'
          · omega
          · exact hm'

/-- The resolved entries claim the strictest kind for every address from the lowest base up to
the highest end. -/
theorem claims_resolved {entries resolved : List Region}
    (h : Region.coalesce (pieces entries (bounds entries)) = .ok resolved) :
    Claims resolved addr kind ↔ (∃ entry ∈ entries, entry.base ≤ addr) ∧
      (∃ entry ∈ entries, addr < entry.stop) ∧ kindAt entries addr = kind := by
  rw [Region.claims_coalesce h, claims_pieces (pairwise_bounds entries) fun entry hm =>
    ⟨.inl (mem_bounds.mpr ⟨entry, hm, .inl rfl⟩), .inl (mem_bounds.mpr ⟨entry, hm, .inr rfl⟩)⟩]
  have hle : ∀ entry : Region, entry.base ≤ entry.stop := fun _ => Nat.le_add_right _ _
  refine and_congr ?_ (and_congr_left' ?_)
  · constructor
    · rintro ⟨cut, hcut, hlow⟩
      obtain ⟨entry, hm, rfl | rfl⟩ := mem_bounds.mp hcut
      · exact ⟨entry, hm, hlow⟩
      · exact ⟨entry, hm, Nat.le_trans (hle entry) hlow⟩
    · rintro ⟨entry, hm, hlow⟩
      exact ⟨entry.base, mem_bounds.mpr ⟨entry, hm, .inl rfl⟩, hlow⟩
  · constructor
    · rintro ⟨cut, hcut, hhigh⟩
      obtain ⟨entry, hm, rfl | rfl⟩ := mem_bounds.mp hcut
      · exact ⟨entry, hm, Nat.lt_of_lt_of_le hhigh (hle entry)⟩
      · exact ⟨entry, hm, hhigh⟩
    · rintro ⟨entry, hm, hhigh⟩
      exact ⟨entry.stop, mem_bounds.mpr ⟨entry, hm, .inr rfl⟩, hhigh⟩

/-! ## The policy -/

/-- A table that covers the addresses up to a threshold stays between its start and the
threshold. -/
theorem within_of_tiles {threshold expected : Nat} {table : List Region}
    (h : LowMemoryPolicy.tiles threshold expected table = .ok true) :
    expected ≤ threshold ∧
      ∀ entry ∈ table, expected ≤ entry.base ∧ entry.stop ≤ threshold := by
  induction table generalizing expected with
  | nil =>
    rw [LowMemoryPolicy.tiles, Except.ok.injEq, beq_iff_eq] at h
    exact ⟨Nat.le_of_eq h, fun _ hm => nomatch hm⟩
  | cons entry rest ih =>
    unfold LowMemoryPolicy.tiles at h
    split_ifs at h with hodd
    · cases h
    obtain ⟨stop, hstop, h⟩ := Outcome.bind_eq_ok.mp h
    obtain ⟨-, rfl⟩ := Region.end?_eq_ok_iff.mp hstop
    obtain ⟨hle, hrest⟩ := ih h
    have hbase : entry.base = expected := by tauto
    unfold Region.stop at *
    refine ⟨by omega, List.forall_mem_cons.mpr ⟨⟨by omega, hle⟩, ?_⟩⟩
    intro other hm
    have := hrest other hm
    exact ⟨by omega, this.2⟩

/-- What a policy keeps of a region that ends above its threshold. -/
def clipped (threshold : Nat) (region : Region) : Region :=
  ⟨max region.base threshold, region.stop - max region.base threshold, region.kind⟩

/-- The regions that end above a threshold, cut there, claim what all regions claim at or above
it. -/
theorem claims_clipped {threshold : Nat} {regions : List Region} :
    Claims ((regions.filter (threshold < ·.stop)).map (clipped threshold)) addr kind ↔
      threshold ≤ addr ∧ Claims regions addr kind := by
  have hclip : ∀ region : Region, threshold < region.stop →
      ((clipped threshold region).Covers addr ↔ threshold ≤ addr ∧ region.Covers addr) := by
    intro region hlt
    simp only [clipped, Region.Covers]
    unfold Region.stop at *
    simp only
    omega
  constructor
  · rintro ⟨region, hm, hcovers, hkind⟩
    obtain ⟨original, hfilter, rfl⟩ := List.mem_map.mp hm
    obtain ⟨horiginal, hlt⟩ := List.mem_filter.mp hfilter
    obtain ⟨hle, hcovers⟩ := (hclip original (of_decide_eq_true hlt)).mp hcovers
    exact ⟨hle, original, horiginal, hcovers, hkind⟩
  · rintro ⟨hle, region, hm, hcovers, hkind⟩
    have hlt : threshold < region.stop := Nat.lt_of_le_of_lt hle hcovers.2
    exact ⟨clipped threshold region,
      List.mem_map_of_mem (List.mem_filter.mpr ⟨hm, decide_eq_true hlt⟩),
      (hclip region hlt).mpr ⟨hle, hcovers⟩, hkind⟩

/-- What a policy keeps of regions claims nothing below the threshold. At or above it there are
the claims of the regions and a hole in front of the first region that is kept. -/
theorem claims_aboveThreshold_iff {threshold : Nat} {regions : List Region} :
    Claims (aboveThreshold threshold regions) addr kind ↔ threshold ≤ addr ∧
      (Claims regions addr kind ∨ kind = .unspecified ∧
        ∃ first ∈ (regions.filter (threshold < ·.stop)).head?, addr < first.base) := by
  have hclipped := @claims_clipped addr kind threshold regions
  unfold aboveThreshold
  cases hkept : regions.filter (threshold < ·.stop) with
  | nil =>
    rw [hkept] at hclipped
    simpa using hclipped
  | cons first rest =>
    rw [hkept] at hclipped
    have hhole : Region.Covers ⟨threshold, first.base - threshold, .unspecified⟩ addr ↔
        threshold ≤ addr ∧ addr < first.base := by
      unfold Region.Covers Region.stop
      simp only
      omega
    have hthere : (∃ other ∈ (first :: rest).head?, addr < other.base) ↔ addr < first.base := by
      simp
    rw [hthere]
    simp only
    split_ifs with hgap
    · rw [claims_cons, hhole]
      refine (or_congr_right hclipped).trans ?_
      simp only [eq_comm (a := kind)]
      tauto
    · refine hclipped.trans ⟨fun h => ⟨h.1, .inl h.2⟩, ?_⟩
      rintro ⟨hle, hclaims | ⟨-, hbelow⟩⟩
      · exact ⟨hle, hclaims⟩
      · omega

/-- At or above a threshold the regions claim the same after it was applied, up to holes. -/
theorem claims_aboveThreshold {threshold : Nat} {regions : List Region}
    (hkind : kind ≠ .unspecified) : Claims (aboveThreshold threshold regions) addr kind ↔
      threshold ≤ addr ∧ Claims regions addr kind := by
  rw [claims_aboveThreshold_iff]
  exact and_congr_right fun _ => or_iff_left fun hhole => hkind hhole.1

/-- What the forced ranges make of a kind. -/
def kindForced (forced : List Region) (addr : Nat) (kind : MemoryKind) : MemoryKind :=
  forced.foldl (fun kind hole => Region.kindUnder hole.base hole.stop addr kind) kind

/-- The forced ranges change the claims inside them and no others. -/
theorem claims_forced {forced spliced out : List Region}
    (h : forced.foldlM (fun done hole => do
      let stop ← hole.end?
      Region.reserve hole.base stop done) spliced = .ok out) :
    Claims out addr kind ↔
      ∃ before, Claims spliced addr before ∧ kindForced forced addr before = kind := by
  induction forced generalizing spliced with
  | nil =>
    cases h
    simp [kindForced]
  | cons hole rest ih =>
    rw [List.foldlM_cons] at h
    obtain ⟨middle, hmiddle, hrest⟩ := Outcome.bind_eq_ok.mp h
    obtain ⟨stop, hstop, hmiddle⟩ := Outcome.bind_eq_ok.mp hmiddle
    obtain ⟨-, rfl⟩ := Region.end?_eq_ok_iff.mp hstop
    rw [ih hrest]
    simp only [Region.claims_reserve hmiddle, kindForced, List.foldl_cons]
    constructor
    · rintro ⟨_, ⟨before, hclaims, rfl⟩, hkind⟩
      exact ⟨before, hclaims, hkind⟩
    · rintro ⟨before, hclaims, hkind⟩
      exact ⟨_, ⟨before, hclaims, rfl⟩, hkind⟩

/-- A kind that is not reserved lies in no forced range, and is the kind from before. -/
theorem kindForced_eq {forced : List Region} {before : MemoryKind}
    (h : kindForced forced addr before = kind) (hkind : kind ≠ .reserved) :
    before = kind ∧ ∀ hole ∈ forced, ¬ hole.Covers addr := by
  induction forced generalizing before with
  | nil => exact ⟨h, fun _ hm => nomatch hm⟩
  | cons hole rest ih =>
    obtain ⟨hbefore, hrest⟩ := ih h
    simp only [Region.kindUnder] at hbefore
    split_ifs at hbefore with hin
    · exact absurd hbefore.symm hkind
    · exact ⟨hbefore, List.forall_mem_cons.mpr ⟨hin, hrest⟩⟩

/-! ## The whole map -/

/-- What is left of the descriptors under the limit of a configuration. -/
def entriesOf (descriptors : List Descriptor) (config : MapConfig) : List Region :=
  descriptors.filterMap (keep? config.addressLimit)

/-- An entry ends at the limit at the latest, and below the limit it covers what its descriptor
covers. -/
theorem keep?_eq_some {limit : Nat} {descriptor : Descriptor} {entry : Region}
    (hlimit : limit < 2 ^ 64) (h : keep? limit descriptor = some entry) :
    entry.stop ≤ limit ∧ entry.kind = descriptor.kind ∧
      (addr < limit → (entry.Covers addr ↔ descriptor.Covers addr)) := by
  unfold keep? at h
  simp only at h
  split_ifs at h with hout
  cases h
  unfold Region.Covers Region.stop Descriptor.Covers Descriptor.stop Word.addSaturating Word.max
  simp only
  exact ⟨by omega, trivial, by omega⟩

/-- A descriptor that covers an address below the limit leaves an entry. -/
theorem keep?_of_covers {limit : Nat} {descriptor : Descriptor} (hlt : addr < limit)
    (h : descriptor.Covers addr) : ∃ entry, keep? limit descriptor = some entry := by
  unfold Descriptor.Covers at h
  unfold keep?
  simp only
  refine ⟨_, if_neg ?_⟩
  rintro (hempty | hbeyond)
  · rw [hempty] at h
    have hzero : (0 : UInt64).toNat = 0 := rfl
    omega
  · omega

/-- The kind of an address is that of a descriptor which covers it, and no other descriptor
that covers it is stricter. -/
theorem descriptors_of_kindAt {descriptors : List Descriptor} {config : MapConfig}
    (h : kindAt (entriesOf descriptors config) addr = kind) (hkind : kind ≠ .unspecified) :
    (∃ descriptor ∈ descriptors, descriptor.Covers addr ∧ descriptor.kind = kind) ∧
      ∀ descriptor ∈ descriptors, descriptor.Covers addr →
        descriptor.kind.precedence ≤ kind.precedence := by
  subst h
  have hlimit : config.addressLimit < 2 ^ 64 := by
    unfold MapConfig.addressLimit Word.addSaturating Word.max
    omega
  obtain ⟨entry, hentry, hcovers, hsame⟩ := exists_of_kindAt hkind
  obtain ⟨descriptor, hm, hkeep⟩ := List.mem_filterMap.mp hentry
  obtain ⟨hstop, hkindeq, hclaimed⟩ := keep?_eq_some hlimit hkeep
  have hlt : addr < config.addressLimit := Nat.lt_of_lt_of_le hcovers.2 hstop
  refine ⟨⟨descriptor, hm, (hclaimed hlt).mp hcovers, hkindeq.symm.trans hsame⟩,
    fun other hother hcovers' => ?_⟩
  obtain ⟨entry', hkeep'⟩ := keep?_of_covers hlt hcovers'
  obtain ⟨-, hkindeq', hiff⟩ := keep?_eq_some hlimit hkeep'
  rw [← hkindeq']
  exact precedence_le_kindAt (List.mem_filterMap.mpr ⟨other, hother, hkeep'⟩)
    ((hiff hlt).mpr hcovers')

/-- Regions with free RAM among them become a map, if they touch. -/
theorem ofRegions_of_usable {regions : List Region} {observedBytes : Nat} {map : MemoryMap}
    (h : (if regions.any (·.kind == .available) then do
        let map ← ofRegions regions observedBytes
        return .ok map
      else
        return .error .noUsableMemory :
          Traced (Except MemoryMapError MemoryMap)).outcome = .ok (.ok map)) :
    ofRegions regions observedBytes = .ok map ∧ map.regions = regions := by
  split_ifs at h
  · simp only [Traced.outcome_bind, Traced.outcome_liftM, Outcome.bind_eq_ok,
      Traced.outcome_pure, Except.ok.injEq] at h
    obtain ⟨built, hbuilt, rfl⟩ := h
    exact ⟨hbuilt, congrArg MemoryMap.regions (eq_of_ofRegions hbuilt)⟩
  · cases h

/-- A map that was made consists of regions that touch: the resolved entries, under the policy if
there is one. It remembers the RAM that was observed. -/
theorem ofFirmware_built {descriptors : List Descriptor} {config : MapConfig} {map : MemoryMap}
    (h : (ofFirmware descriptors config).outcome = .ok (.ok map)) :
    ofRegions map.regions (observed descriptors) = .ok map ∧ ∃ resolved,
      Region.coalesce (pieces (entriesOf descriptors config)
        (bounds (entriesOf descriptors config))) = .ok resolved ∧
      match config.lowMemory with
      | none => map.regions = resolved
      | some policy => applyPolicy policy resolved = .ok map.regions := by
  unfold ofFirmware at h
  simp only [Traced.outcome_bind, Traced.outcome_reportAll, Outcome.ok_bind] at h
  by_cases hempty : (descriptors.filterMap (keep? config.addressLimit)).isEmpty = true
  · rw [if_pos hempty] at h
    cases h
  rw [if_neg hempty] at h
  -- The warning about overlaps does not change the outcome.
  cases hlow : config.lowMemory with
  | none =>
    split_ifs at h
    all_goals
      simp only [hlow, Traced.outcome_bind, Traced.outcome_report, Traced.outcome_reportAll,
        Traced.outcome_liftM, Traced.outcome_pure, Outcome.ok_bind, Outcome.bind_eq_ok] at h
      obtain ⟨resolved, hresolved, h⟩ := h
      obtain ⟨hmap, hregions⟩ := ofRegions_of_usable h
      rw [hregions]
      exact ⟨hmap, resolved, hresolved, rfl⟩
  | some policy =>
    split_ifs at h
    all_goals
      simp only [hlow, Traced.outcome_bind, Traced.outcome_report, Traced.outcome_reportAll,
        Traced.outcome_liftM, Outcome.ok_bind, Outcome.bind_eq_ok] at h
      obtain ⟨resolved, hresolved, regions, happly, h⟩ := h
      obtain ⟨hmap, hregions⟩ := ofRegions_of_usable h
      rw [hregions]
      exact ⟨hmap, resolved, hresolved, happly⟩

/-- A map that was made consists of regions in order: the resolved entries, under the policy if
there is one. -/
theorem ofFirmware_ok {descriptors : List Descriptor} {config : MapConfig} {map : MemoryMap}
    (h : (ofFirmware descriptors config).outcome = .ok (.ok map)) :
    (∃ observedBytes, ofRegions map.regions observedBytes = .ok map) ∧ ∃ resolved,
      Region.coalesce (pieces (entriesOf descriptors config)
        (bounds (entriesOf descriptors config))) = .ok resolved ∧
      match config.lowMemory with
      | none => map.regions = resolved
      | some policy => applyPolicy policy resolved = .ok map.regions :=
  (ofFirmware_built h).imp_left fun hmap => ⟨_, hmap⟩

/-- What the firmware and the platform say of an address that may be used as RAM. -/
structure Offers (descriptors : List Descriptor) (config : MapConfig) (addr : Nat)
    (kind : MemoryKind) : Prop where
  /-- Without a policy, or at or above its threshold, the kind is that of a descriptor, and no
  other descriptor that covers the address is stricter. -/
  firmware : (∀ policy, config.lowMemory = some policy → policy.threshold ≤ addr) →
    (∃ descriptor ∈ descriptors, descriptor.Covers addr ∧ descriptor.kind = kind) ∧
      ∀ descriptor ∈ descriptors, descriptor.Covers addr →
        descriptor.kind.precedence ≤ kind.precedence
  /-- Below the threshold of a policy the kind is that of its table. -/
  table : ∀ policy, config.lowMemory = some policy → addr < policy.threshold →
    Claims policy.table addr kind
  /-- The address lies in no forced range. -/
  forced : ∀ policy, config.lowMemory = some policy →
    ∀ hole ∈ policy.forced, ¬ hole.Covers addr

/-- What a map claims to be RAM is RAM for the firmware or the platform. -/
theorem offers_of_claims {descriptors : List Descriptor} {config : MapConfig} {map : MemoryMap}
    (h : (ofFirmware descriptors config).outcome = .ok (.ok map))
    (hpolicy : ∀ policy, config.lowMemory = some policy → policy.isWellFormed = .ok true)
    (hram : kind.isRam = true) (hclaims : Claims map.regions addr kind) :
    Offers descriptors config addr kind := by
  obtain ⟨-, resolved, hresolved, hregions⟩ := ofFirmware_ok h
  have hhole : kind ≠ .unspecified := by
    rintro rfl
    exact Bool.noConfusion hram
  have hreserved : kind ≠ .reserved := by
    rintro rfl
    exact Bool.noConfusion hram
  have hfirmware : Claims resolved addr kind →
      (∃ descriptor ∈ descriptors, descriptor.Covers addr ∧ descriptor.kind = kind) ∧
        ∀ descriptor ∈ descriptors, descriptor.Covers addr →
          descriptor.kind.precedence ≤ kind.precedence :=
    fun hclaims => descriptors_of_kindAt ((claims_resolved hresolved).mp hclaims).2.2 hhole
  cases hlow : config.lowMemory with
  | none =>
    rw [hlow] at hregions
    simp only at hregions
    rw [hregions] at hclaims
    exact ⟨fun _ => hfirmware hclaims, by simp [hlow], by simp [hlow]⟩
  | some policy =>
    rw [hlow] at hregions
    obtain ⟨spliced, hspliced, hforced⟩ := Outcome.bind_eq_ok.mp hregions
    obtain ⟨before, hbefore, hkind⟩ := (claims_forced hforced).mp hclaims
    obtain ⟨rfl, hout⟩ := kindForced_eq hkind hreserved
    rw [Region.claims_coalesce hspliced, claims_append, claims_aboveThreshold hhole] at hbefore
    -- The table claims addresses below the threshold only.
    have htable : Claims policy.table addr before → addr < policy.threshold := by
      rintro ⟨entry, hm, hcovers, -⟩
      have := (within_of_tiles (hpolicy policy hlow)).2 entry hm
      exact Nat.lt_of_lt_of_le hcovers.2 this.2
    refine ⟨?_, ?_, ?_⟩
    · intro hthreshold
      have hle := hthreshold policy hlow
      rcases hbefore with hbefore | ⟨-, hbefore⟩
      · have := htable hbefore
        omega
      · exact hfirmware hbefore
    · intro other hother hlt
      rw [hlow] at hother
      cases hother
      rcases hbefore with hbefore | ⟨hle, -⟩
      · exact hbefore
      · omega
    · intro other hother
      rw [hlow] at hother
      cases hother
      exact hout

end MemoryMap

end BootMemory
