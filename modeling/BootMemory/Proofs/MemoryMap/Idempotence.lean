import BootMemory.Proofs.MemoryMap.Refusal

/-!
# A map as a firmware list

The regions of a map, holes left out, are a firmware list again. What the list describes is what the
map claims, as far as it is no hole (`kindAt_toDescriptors`), so a map is made from it that covers
the same addresses (`mapped_toDescriptors`) and gives them the same kinds (`means_toDescriptors`).
Regions are told by their claims, so these are the regions that the list was made from: a map that
is made from a map is the same map (`ofFirmware_idempotent`). The threshold of a policy has to lie
below the limit, as otherwise the list is clipped where the table is not.
-/

set_option autoImplicit false

namespace BootMemory

/-- The type code that the firmware has for a kind, if it has one. -/
def MemoryKind.code? : MemoryKind → Option UInt32
  | available => some 1
  | reserved => some 2
  | acpiReclaimable => some 3
  | unspecified => none

/-- The descriptor of a region, unless the region is a hole. -/
def Descriptor.ofRegion? (region : Region) : Option Descriptor :=
  region.kind.code?.map fun code => ⟨.ofNat region.base, .ofNat region.length, code⟩

namespace MemoryMap

/-- The regions of a map as a firmware list, holes left out. -/
def toDescriptors (map : MemoryMap) : List Descriptor :=
  map.regions.filterMap Descriptor.ofRegion?

variable {descriptors first second : List Descriptor} {config : MapConfig} {map : MemoryMap}
  {addr : Nat} {kind : MemoryKind}

/-! ## What the list offers -/

/-- The descriptor of a region that fits a word has its bytes and its kind. -/
theorem bytesOf_ofRegion? {region : Region} (hfits : region.stop < 2 ^ 64) :
    (Descriptor.ofRegion? region).map bytesOf =
      if region.kind ≠ .unspecified then some region else none := by
  obtain ⟨base, length, kind⟩ := region
  have hbase : (UInt64.ofNat base).toNat = base :=
    UInt64.toNat_ofNat_of_lt (Nat.lt_of_le_of_lt (Nat.le_add_right base length) hfits)
  have hlength : (UInt64.ofNat length).toNat = length :=
    UInt64.toNat_ofNat_of_lt (Nat.lt_of_le_of_lt (Nat.le_add_left length base) hfits)
  cases kind <;>
    simp [Descriptor.ofRegion?, MemoryKind.code?, bytesOf, hbase, hlength, Descriptor.kind,
      MemoryKind.ofCode]

/-- The list of a map has the bytes and the kinds of its regions, holes left out. -/
theorem map_bytesOf_toDescriptors (hfits : ∀ region ∈ map.regions, region.stop < 2 ^ 64) :
    map.toDescriptors.map bytesOf = map.regions.filter (·.kind ≠ .unspecified) := by
  unfold toDescriptors
  rw [List.map_filterMap, ← List.filterMap_eq_filter]
  refine List.filterMap_congr fun region hm => ?_
  rw [bytesOf_ofRegion? (hfits region hm)]
  simp only [Option.guard, decide_eq_true_eq]

/-- The list of a map offers what the map claims, holes left out. -/
theorem offered_toDescriptors (hfits : ∀ region ∈ map.regions, region.stop < 2 ^ 64) :
    Offered map.toDescriptors addr kind ↔ Claims map.regions addr kind ∧ kind ≠ .unspecified := by
  have hbytes : Offered map.toDescriptors addr kind ↔
      Claims (map.toDescriptors.map bytesOf) addr kind := by
    unfold Claims
    simp only [List.mem_map, exists_exists_and_eq_and]
    exact Iff.rfl
  rw [hbytes, map_bytesOf_toDescriptors hfits]
  unfold Claims
  simp only [List.mem_filter, decide_eq_true_eq]
  constructor
  · rintro ⟨region, ⟨hm, hne⟩, hcovers, rfl⟩
    exact ⟨⟨region, hm, hcovers, rfl⟩, hne⟩
  · rintro ⟨⟨region, hm, hcovers, rfl⟩, hne⟩
    exact ⟨region, ⟨hm, hne⟩, hcovers, rfl⟩

/-- Regions in order claim one kind for an address at most. -/
theorem kind_eq_of_claims {regions : List Region} {other : MemoryKind} (h : Ordered regions)
    (hclaims : Claims regions addr kind) (hother : Claims regions addr other) : kind = other := by
  induction regions with
  | nil => exact absurd hclaims claims_nil
  | cons region rest ih =>
    obtain ⟨hregion, hrest⟩ := List.pairwise_cons.mp h
    have hbeyond : ∀ kind, region.Covers addr → ¬ Claims rest addr kind := by
      rintro kind hcovers ⟨behind, hm, hbehind, -⟩
      have hle := Nat.le_trans (hregion behind hm) hbehind.1
      exact Nat.not_lt_of_le hle hcovers.2
    rw [claims_cons] at hclaims hother
    rcases hclaims with ⟨hcovers, rfl⟩ | hclaims <;> rcases hother with ⟨hcovers', rfl⟩ | hother
    · rfl
    · exact absurd hother (hbeyond other hcovers)
    · exact absurd hclaims (hbeyond kind hcovers')
    · exact ih hrest hclaims hother

/-- The strictest kind in the list of a map is the one that the map claims. -/
theorem strictest_toDescriptors (hordered : Ordered map.regions)
    (hfits : ∀ region ∈ map.regions, region.stop < 2 ^ 64) :
    Strictest map.toDescriptors addr kind ↔ Claims map.regions addr kind ∧ kind ≠ .unspecified := by
  rw [strictest_iff_offered]
  simp only [offered_toDescriptors hfits]
  refine and_iff_left_of_imp ?_
  rintro ⟨hclaims, -⟩ other ⟨hother, -⟩
  rw [kind_eq_of_claims hordered hclaims hother]

/-! ## What the firmware says about a map -/

/-- Under a threshold below the limit every mapped address is below the limit. -/
theorem Mapped.lt_limit (h : Mapped descriptors config addr)
    (hthreshold : ∀ policy, config.lowMemory = some policy →
      policy.threshold ≤ config.addressLimit) : addr < config.addressLimit := by
  have hdescribed : (∃ other ≥ addr,
      kindAt (entriesOf descriptors config) other ≠ .unspecified) → addr < config.addressLimit := by
    rintro ⟨other, hle, hne⟩
    exact Nat.lt_of_le_of_lt hle (lt_limit_of_kindAt hne)
  cases hlow : config.lowMemory with
  | none => exact hdescribed ((mapped_of_none_iff hlow).mp h).2
  | some policy =>
    rcases (mapped_of_policy_iff hlow).mp h with hbelow | habove
    · exact Nat.lt_of_lt_of_le hbelow (hthreshold policy hlow)
    · exact hdescribed habove

/-- What the platform and the firmware say depends on the firmware only where it is asked. -/
theorem Means.of_reported (h : Means first config addr kind)
    (hsame : (∀ policy, config.lowMemory = some policy →
        policy.threshold ≤ addr ∧ ∀ hole ∈ policy.forced, ¬ hole.Covers addr) →
      Reported first config.addressLimit addr kind →
      Reported second config.addressLimit addr kind) :
    Means second config addr kind := by
  cases h with
  | forced hpolicy hm hcovers => exact .forced hpolicy hm hcovers
  | table hpolicy hforced hbelow hm hcovers => exact .table hpolicy hforced hbelow hm hcovers
  | firmware hpolicy hreported => exact .firmware hpolicy (hsame hpolicy hreported)

section Again

variable (h : (ofFirmware descriptors config).outcome = .ok (.ok map))
  (hpolicy : ∀ policy, config.lowMemory = some policy → policy.isWellFormed = .ok true ∧
    (∀ hole ∈ policy.forced, hole.stop < 2 ^ 64) ∧ policy.threshold ≤ config.addressLimit)

include h hpolicy

/-- A map claims for every mapped address the kind that the firmware and the policy mean, and
nothing else. -/
theorem claims_iff : Claims map.regions addr kind ↔
    Mapped descriptors config addr ∧ Means descriptors config addr kind :=
  claims_ofFirmware h fun policy hlow => (hpolicy policy hlow).1

/-- The regions of a map end within a word. -/
theorem fits_of_ofFirmware : ∀ region ∈ map.regions, region.stop < 2 ^ 64 := by
  obtain ⟨answer, hanswer, -, -, hmap⟩ := ofFirmware_normal descriptors config fun policy hlow =>
    ⟨(hpolicy policy hlow).1, (hpolicy policy hlow).2.1⟩
  rw [h, Except.ok.injEq] at hanswer
  obtain ⟨start, stop, hnormal, -⟩ := hmap map hanswer.symm
  exact hnormal.fits

/-- The firmware describes what a map claims that is no hole. -/
theorem kindAt_toDescriptors (hne : kind ≠ .unspecified) :
    kindAt (entriesOf map.toDescriptors config) addr = kind ↔ Claims map.regions addr kind := by
  have hstrictest := @strictest_toDescriptors map addr kind
    (ordered_of_ofRegions (ofFirmware_built h).1) (fits_of_ofFirmware h hpolicy)
  rw [and_iff_left hne] at hstrictest
  rw [← hstrictest]
  constructor
  · intro hkind
    have hlt := lt_limit_of_kindAt (hkind ▸ hne)
    exact (strictest_iff hlt).mpr ⟨hkind, hne⟩
  · intro hkind
    have hmapped := ((claims_iff h hpolicy).mp (hstrictest.mp hkind)).1
    have hlt := hmapped.lt_limit fun policy hlow => (hpolicy policy hlow).2.2
    exact ((strictest_iff hlt).mp hkind).1

/-- So it describes the addresses that are mapped and no holes. -/
theorem described_toDescriptors :
    kindAt (entriesOf map.toDescriptors config) addr ≠ .unspecified ↔
      ∃ kind ≠ .unspecified, Mapped descriptors config addr ∧
        Means descriptors config addr kind := by
  constructor
  · intro hne
    exact ⟨_, hne, (claims_iff h hpolicy).mp ((kindAt_toDescriptors h hpolicy hne).mp rfl)⟩
  · rintro ⟨kind, hne, hmeans⟩
    rw [(kindAt_toDescriptors h hpolicy hne).mpr ((claims_iff h hpolicy).mpr hmeans)]
    exact hne

/-- Where the firmware is asked, it says of a mapped address what it said before. -/
theorem kindAt_toDescriptors_eq (hmapped : Mapped descriptors config addr)
    (hasked : ∀ policy, config.lowMemory = some policy →
      policy.threshold ≤ addr ∧ ∀ hole ∈ policy.forced, ¬ hole.Covers addr) :
    kindAt (entriesOf map.toDescriptors config) addr =
      kindAt (entriesOf descriptors config) addr := by
  have hclaims : Claims map.regions addr (kindAt (entriesOf descriptors config) addr) :=
    (claims_iff h hpolicy).mpr ⟨hmapped, .firmware hasked (kindAt_eq_iff.mp rfl)⟩
  by_cases hhole : kindAt (entriesOf descriptors config) addr = .unspecified
  · rw [hhole] at hclaims ⊢
    by_contra hne
    have hother := (kindAt_toDescriptors h hpolicy hne).mp rfl
    exact hne (kind_eq_of_claims (ordered_of_ofRegions (ofFirmware_built h).1) hother hclaims)
  · exact (kindAt_toDescriptors h hpolicy hhole).mpr hclaims

/-- The same addresses are mapped. -/
theorem mapped_toDescriptors :
    Mapped map.toDescriptors config addr ↔ Mapped descriptors config addr := by
  cases hlow : config.lowMemory with
  | none =>
    have hsame : ∀ other, kindAt (entriesOf map.toDescriptors config) other ≠ .unspecified ↔
        kindAt (entriesOf descriptors config) other ≠ .unspecified := by
      intro other
      rw [described_toDescriptors h hpolicy]
      constructor
      · rintro ⟨kind, hne, -, hmeans⟩
        rw [means_of_none hlow, ← kindAt_eq_iff] at hmeans
        rwa [hmeans]
      · intro hne
        exact ⟨_, hne, mapped_of_kindAt hne, (means_of_none hlow).mpr (kindAt_eq_iff.mp rfl)⟩
    rw [mapped_of_none_iff hlow, mapped_of_none_iff hlow]
    simp only [hsame]
  | some policy =>
    rw [mapped_of_policy_iff hlow, mapped_of_policy_iff hlow]
    constructor
    · rintro (hbelow | ⟨other, hle, hne⟩)
      · exact .inl hbelow
      · obtain ⟨kind, -, hmapped, -⟩ := (described_toDescriptors h hpolicy).mp hne
        rcases (mapped_of_policy_iff hlow).mp hmapped with hbelow | ⟨last, hle', hlast⟩
        · exact .inl (Nat.lt_of_le_of_lt hle hbelow)
        · exact .inr ⟨last, Nat.le_trans hle hle', hlast⟩
    · rintro (hbelow | ⟨other, hle, hne⟩)
      · exact .inl hbelow
      by_cases hbelow : other < policy.threshold
      · exact .inl (Nat.lt_of_le_of_lt hle hbelow)
      -- At or above the threshold what is described stays described, if only as reserved.
      obtain ⟨kind, hmeans⟩ := exists_means descriptors other fun policy hlow =>
        (hpolicy policy hlow).1
      refine .inr ⟨other, hle, (described_toDescriptors h hpolicy).mpr
        ⟨kind, ?_, mapped_of_kindAt hne, hmeans⟩⟩
      cases hmeans with
      | forced _ _ _ => decide
      | table hother _ hlt _ _ =>
        rw [hlow] at hother
        cases hother
        exact absurd hlt hbelow
      | firmware _ hreported => rwa [← kindAt_eq_iff.mpr hreported]

/-- And they have the same kinds. -/
theorem means_toDescriptors (hmapped : Mapped descriptors config addr) :
    Means map.toDescriptors config addr kind ↔ Means descriptors config addr kind := by
  constructor
  · refine fun hmeans => hmeans.of_reported fun hasked hreported => ?_
    rwa [← kindAt_eq_iff, ← kindAt_toDescriptors_eq h hpolicy hmapped hasked, kindAt_eq_iff]
  · refine fun hmeans => hmeans.of_reported fun hasked hreported => ?_
    rwa [← kindAt_eq_iff, kindAt_toDescriptors_eq h hpolicy hmapped hasked, kindAt_eq_iff]

/-- The list of a map is not empty, since a map has free RAM. -/
theorem entriesOf_toDescriptors_ne_nil : entriesOf map.toDescriptors config ≠ [] := by
  have hcases := @answer_cases config descriptors fun policy hlow =>
    ⟨(hpolicy policy hlow).1, (hpolicy policy hlow).2.1⟩
  simp only [h, Except.ok.injEq, reduceCtorEq, false_and, false_or] at hcases
  obtain ⟨-, -, addr, husable⟩ := hcases
  intro hnil
  refine (described_toDescriptors h hpolicy).mpr ⟨.available, by decide, usable_iff.mp husable⟩ ?_
  exact entriesOf_eq_nil_iff.mp hnil addr

end Again

/-! ## The map of a map -/

/-- Lists that cover the same addresses with the same kinds have the same regions. -/
theorem sameRegions_of_means
    (hpolicy : ∀ policy, config.lowMemory = some policy → policy.isWellFormed = .ok true ∧
      ∀ hole ∈ policy.forced, hole.stop < 2 ^ 64)
    (hfirst : entriesOf first config ≠ []) (hsecond : entriesOf second config ≠ [])
    (h : ∀ addr kind, Mapped first config addr ∧ Means first config addr kind ↔
      Mapped second config addr ∧ Means second config addr kind) :
    SameRegions config first second := by
  have hwell : ∀ policy, config.lowMemory = some policy → policy.isWellFormed = .ok true :=
    fun policy hlow => (hpolicy policy hlow).1
  obtain ⟨one, hone, -⟩ := ofFirmware_normal first config hpolicy
  obtain ⟨other, hother, -⟩ := ofFirmware_normal second config hpolicy
  refine ⟨one, other, hone, hother, ?_⟩
  obtain ⟨resolved, regions, start, stop, hresolved, happlied, hconnects, htidy, -⟩ :=
    exists_regions hfirst hpolicy
  obtain ⟨resolved', regions', start', stop', hresolved', happlied', hconnects', htidy', -⟩ :=
    exists_regions hsecond hpolicy
  have hregions : regions = regions' := by
    refine hconnects.eq_of_claims htidy hconnects' htidy' fun addr kind => ?_
    rw [claims_applied hresolved (eq_of_applied happlied) hwell,
      claims_applied hresolved' (eq_of_applied happlied') hwell]
    exact h addr kind
  rw [ofFirmware_outcome, if_neg (mt List.isEmpty_iff.mp hfirst), hresolved, Outcome.ok_bind,
    happlied, Outcome.ok_bind] at hone
  rw [ofFirmware_outcome, if_neg (mt List.isEmpty_iff.mp hsecond), hresolved', Outcome.ok_bind,
    happlied', Outcome.ok_bind, ← hregions] at hother
  have hsame := answerOf_map_regions regions (observed first) (observed second)
  rw [hone, hother] at hsame
  exact Except.ok.inj hsame

/-- Under any configuration without a policy, or with a well-formed one whose forced ranges fit a
word and whose threshold is not above the limit: if a firmware list has a map, the regions of the
map, holes left out, are a firmware list that has a map with exactly the same regions, whoever
listens and with every step checked. No byte and no kind is lost on the way to the list. -/
theorem ofFirmware_idempotent
    (hpolicy : ∀ policy, config.lowMemory = some policy → policy.isWellFormed = .ok true ∧
      (∀ hole ∈ policy.forced, hole.stop < 2 ^ 64) ∧ policy.threshold ≤ config.addressLimit)
    (h : (ofFirmware descriptors config).outcome = .ok (.ok map)) :
    map.toDescriptors.map bytesOf = map.regions.filter (·.kind ≠ .unspecified) ∧
      ∃ again, (ofFirmware map.toDescriptors config).HasValue (.ok again) ∧
        Checked.ofFirmware map.toDescriptors config = .ok (.ok again) ∧
        again.regions = map.regions := by
  refine ⟨map_bytesOf_toDescriptors (fits_of_ofFirmware h hpolicy), ?_⟩
  have hfaultless : ∀ policy, config.lowMemory = some policy → policy.isWellFormed = .ok true ∧
      ∀ hole ∈ policy.forced, hole.stop < 2 ^ 64 := fun policy hlow =>
    ⟨(hpolicy policy hlow).1, (hpolicy policy hlow).2.1⟩
  have hkept : entriesOf descriptors config ≠ [] := by
    intro hnil
    rw [ofFirmware_outcome, if_pos (List.isEmpty_iff.mpr hnil)] at h
    cases h
  have hmeans : ∀ addr kind, Mapped map.toDescriptors config addr ∧
      Means map.toDescriptors config addr kind ↔
        Mapped descriptors config addr ∧ Means descriptors config addr kind := by
    intro addr kind
    rw [mapped_toDescriptors h hpolicy]
    exact and_congr_right fun hmapped => means_toDescriptors h hpolicy hmapped
  obtain ⟨answer, other, hanswer, hother, hsame⟩ :=
    sameRegions_of_means hfaultless (entriesOf_toDescriptors_ne_nil h hpolicy) hkept hmeans
  rw [h, Except.ok.injEq] at hother
  rw [← hother] at hsame
  obtain ⟨again, hagain, hchecked, hobserved, -⟩ :=
    ofFirmware_normal map.toDescriptors config hfaultless
  rw [hanswer, Except.ok.injEq] at hagain
  rw [← hagain] at hchecked hobserved
  cases answer with
  | error cause => cases hsame
  | ok again => exact ⟨again, hobserved, hchecked, Except.ok.inj hsame⟩

/-- A hole that begins at the threshold and a forced range that cuts free RAM come back as they
were. -/
theorem ofFirmware_idempotent_hole_at_threshold :
    let policy : LowMemoryPolicy :=
      ⟨0x1000, [⟨0, 0x800, .available⟩, ⟨0x800, 0x800, .reserved⟩], [⟨0x2800, 0x800, .reserved⟩]⟩
    let config : MapConfig := ⟨0xFFFF, some policy⟩
    let firmware : List Descriptor := [⟨0x2000, 0x2000, 1⟩, ⟨0, 0x1000, 1⟩, ⟨0x6000, 0x1000, 3⟩]
    let regions : List Region :=
      [⟨0, 0x800, .available⟩, ⟨0x800, 0x800, .reserved⟩, ⟨0x1000, 0x1000, .unspecified⟩,
        ⟨0x2000, 0x800, .available⟩, ⟨0x2800, 0x800, .reserved⟩, ⟨0x3000, 0x1000, .available⟩,
        ⟨0x4000, 0x2000, .unspecified⟩, ⟨0x6000, 0x1000, .acpiReclaimable⟩]
    ∃ map, (ofFirmware firmware config).outcome = .ok (.ok map) ∧ map.regions = regions ∧
      ∃ again, (ofFirmware map.toDescriptors config).HasValue (.ok again) ∧
        again.regions = regions := by
  intro policy config firmware regions
  have hrun : ((ofFirmware firmware config).andThen fun map => return map.regions).outcome =
      .ok (some regions) := by
    decide +kernel
  obtain ⟨map, hmap, hregions⟩ := Traced.of_andThen hrun
  replace hregions : map.regions = regions := Except.ok.inj hregions
  have hpolicy : ∀ other, config.lowMemory = some other → other.isWellFormed = .ok true ∧
      (∀ hole ∈ other.forced, hole.stop < 2 ^ 64) ∧ other.threshold ≤ config.addressLimit := by
    rintro other ⟨⟩
    exact ⟨rfl, by decide, by decide⟩
  obtain ⟨-, again, hagain, -, hsame⟩ := ofFirmware_idempotent hpolicy hmap
  exact ⟨map, hmap, hregions, again, hagain, hsame.trans hregions⟩

end MemoryMap

end BootMemory
