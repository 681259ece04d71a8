import BootMemory.Proofs.MemoryMap.Lookup
import Mathlib.Data.List.Basic

/-!
# What a normalized map means

A firmware list and a configuration say of every address whether the map covers it (`Mapped`)
and of what kind it is (`Means`): a forced range beats the platform's table, the table beats the
descriptors, among the descriptors the strictest wins, and what nobody describes is a hole. The
map that is made from them says the same (`claims_ofFirmware`), so looking an address up in it
answers the question for the firmware and the platform (`ofFirmware_pointwise`).
-/

set_option autoImplicit false

namespace BootMemory

namespace Descriptor

/-- Whether a descriptor is kept under a limit: it has bytes, and starts below the limit. -/
def Kept (limit : Nat) (descriptor : Descriptor) : Prop :=
  descriptor.length ≠ 0 ∧ descriptor.base.toNat < limit

/-- The end of a descriptor, cut off at the largest word and at a limit. -/
def clippedStop (limit : Nat) (descriptor : Descriptor) : Nat :=
  min (min (descriptor.base.toNat + descriptor.length.toNat) (2 ^ 64 - 1)) limit

/-- The firmware counts two type codes as installed RAM. -/
theorem isRam_kind_iff {descriptor : Descriptor} :
    descriptor.kind.isRam = true ↔ descriptor.code = 1 ∨ descriptor.code = 3 := by
  rw [← UInt32.toNat_inj, ← UInt32.toNat_inj]
  show (MemoryKind.ofCode descriptor.code.toNat).isRam = true ↔
    descriptor.code.toNat = 1 ∨ descriptor.code.toNat = 3
  unfold MemoryKind.ofCode
  split_ifs with hone hthree
  · simp [MemoryKind.isRam, hone]
  · simp [MemoryKind.isRam, hthree]
  · simp [MemoryKind.isRam, hone, hthree]

end Descriptor

namespace MemoryMap

variable {descriptors : List Descriptor} {config : MapConfig} {addr : Nat} {kind : MemoryKind}

/-- Whether a kept descriptor of a kind covers an address. -/
def Reports (descriptors : List Descriptor) (limit addr : Nat) (kind : MemoryKind) : Prop :=
  ∃ descriptor ∈ descriptors, descriptor.Kept limit ∧ descriptor.base.toNat ≤ addr ∧
    addr < descriptor.clippedStop limit ∧ descriptor.kind = kind

/-- The kind that the firmware gives to an address: the strictest of the kept descriptors that
cover it, or that of a hole if none does. -/
def Reported (descriptors : List Descriptor) (limit addr : Nat) (kind : MemoryKind) : Prop :=
  (Reports descriptors limit addr kind ∧
      ∀ other, Reports descriptors limit addr other → other.precedence ≤ kind.precedence) ∨
    kind = .unspecified ∧ ∀ other, ¬ Reports descriptors limit addr other

/-- The addresses that a map covers: those from the lowest base of a kept descriptor, or from zero
if there is a policy, up to the highest end or the threshold of the policy. -/
def Mapped (descriptors : List Descriptor) (config : MapConfig) (addr : Nat) : Prop :=
  match config.lowMemory with
  | none =>
    (∃ descriptor ∈ descriptors, descriptor.Kept config.addressLimit ∧
      descriptor.base.toNat ≤ addr) ∧
    ∃ descriptor ∈ descriptors, descriptor.Kept config.addressLimit ∧
      addr < descriptor.clippedStop config.addressLimit
  | some policy =>
    addr < policy.threshold ∨
      ∃ descriptor ∈ descriptors, descriptor.Kept config.addressLimit ∧
        addr < descriptor.clippedStop config.addressLimit

/-- The kind of an address for the platform and the firmware. -/
inductive Means (descriptors : List Descriptor) (config : MapConfig) (addr : Nat) :
    MemoryKind → Prop where
  /-- A forced range is reserved, whatever else is said about it. -/
  | forced {policy : LowMemoryPolicy} {hole : Region} (hpolicy : config.lowMemory = some policy)
      (hm : hole ∈ policy.forced) (hcovers : hole.Covers addr) :
      Means descriptors config addr .reserved
  /-- Below the threshold the table decides. -/
  | table {policy : LowMemoryPolicy} {entry : Region} (hpolicy : config.lowMemory = some policy)
      (hforced : ∀ hole ∈ policy.forced, ¬ hole.Covers addr) (hbelow : addr < policy.threshold)
      (hm : entry ∈ policy.table) (hcovers : entry.Covers addr) :
      Means descriptors config addr entry.kind
  /-- Everything else is left to the firmware. -/
  | firmware {kind : MemoryKind} (hpolicy : ∀ policy, config.lowMemory = some policy →
        policy.threshold ≤ addr ∧ ∀ hole ∈ policy.forced, ¬ hole.Covers addr)
      (hreported : Reported descriptors config.addressLimit addr kind) :
      Means descriptors config addr kind

/-! ## The entries -/

/-- The entry of a descriptor that is kept. -/
theorem keep?_eq_some_iff {limit : Nat} {descriptor : Descriptor} {entry : Region} :
    keep? limit descriptor = some entry ↔ descriptor.Kept limit ∧ entry =
      ⟨descriptor.base.toNat, descriptor.clippedStop limit - descriptor.base.toNat,
        descriptor.kind⟩ := by
  unfold keep? Descriptor.Kept
  simp only
  split_ifs with hout
  · refine iff_of_false (fun h => nomatch h) ?_
    rintro ⟨⟨hlength, hbase⟩, -⟩
    rcases hout with hempty | hbeyond
    · exact hlength hempty
    · omega
  · rw [not_or, Nat.not_le] at hout
    rw [Option.some.injEq, eq_comm, and_iff_right hout]
    exact Iff.rfl

/-- An entry starts where its descriptor does, and ends where it is cut off. -/
theorem stop_entry {limit : Nat} {descriptor : Descriptor} (hkept : descriptor.Kept limit) :
    Region.stop ⟨descriptor.base.toNat, descriptor.clippedStop limit - descriptor.base.toNat,
      descriptor.kind⟩ = descriptor.clippedStop limit := by
  have hbase := hkept.2
  have hword := descriptor.base.toNat_lt
  unfold Region.stop Descriptor.clippedStop
  simp only
  omega

/-- The entries are as the kept descriptors say. -/
theorem exists_entry_iff (P : Nat → Nat → MemoryKind → Prop) :
    (∃ entry ∈ entriesOf descriptors config, P entry.base entry.stop entry.kind) ↔
      ∃ descriptor ∈ descriptors, descriptor.Kept config.addressLimit ∧
        P descriptor.base.toNat (descriptor.clippedStop config.addressLimit) descriptor.kind := by
  constructor
  · rintro ⟨entry, hentry, hholds⟩
    obtain ⟨descriptor, hm, hkeep⟩ := List.mem_filterMap.mp hentry
    obtain ⟨hkept, rfl⟩ := keep?_eq_some_iff.mp hkeep
    rw [stop_entry hkept] at hholds
    exact ⟨descriptor, hm, hkept, hholds⟩
  · rintro ⟨descriptor, hm, hkept, hdescriptor⟩
    refine ⟨_, List.mem_filterMap.mpr ⟨descriptor, hm, keep?_eq_some_iff.mpr ⟨hkept, rfl⟩⟩, ?_⟩
    rw [stop_entry hkept]
    exact hdescriptor

/-- The entries claim what the kept descriptors report. -/
theorem claims_entriesOf : Claims (entriesOf descriptors config) addr kind ↔
    Reports descriptors config.addressLimit addr kind := by
  refine (exists_entry_iff fun base stop other =>
    (base ≤ addr ∧ addr < stop) ∧ other = kind).trans ?_
  simp only [and_assoc]
  exact Iff.rfl

/-- The entries give an address the kind that the firmware gives to it. -/
theorem kindAt_eq_iff : kindAt (entriesOf descriptors config) addr = kind ↔
    Reported descriptors config.addressLimit addr kind := by
  unfold Reported
  simp only [← claims_entriesOf]
  have hle : ∀ other, Claims (entriesOf descriptors config) addr other →
      other.precedence ≤ (kindAt (entriesOf descriptors config) addr).precedence := by
    rintro other ⟨entry, hm, hcovers, rfl⟩
    exact precedence_le_kindAt hm hcovers
  -- An address that some entry covers has the kind of an entry that covers it.
  have hclaimed : ∀ other, Claims (entriesOf descriptors config) addr other →
      Claims (entriesOf descriptors config) addr (kindAt (entriesOf descriptors config) addr) := by
    intro other hother
    by_cases hhole : kindAt (entriesOf descriptors config) addr = .unspecified
    · have hother' := hle other hother
      rw [hhole] at hother' ⊢
      rwa [← MemoryKind.precedence_injective (Nat.le_antisymm hother' (Nat.zero_le _))]
    · exact exists_of_kindAt hhole
  constructor
  · rintro rfl
    by_cases hcovered : ∃ other, Claims (entriesOf descriptors config) addr other
    · obtain ⟨other, hother⟩ := hcovered
      exact .inl ⟨hclaimed other hother, hle⟩
    · rw [not_exists] at hcovered
      refine .inr ⟨?_, hcovered⟩
      by_contra hkind
      exact hcovered _ (exists_of_kindAt hkind)
  · rintro (⟨hkind, hstrictest⟩ | ⟨rfl, hnone⟩)
    · exact MemoryKind.precedence_injective
        (Nat.le_antisymm (hstrictest _ (hclaimed kind hkind)) (hle kind hkind))
    · by_contra hkind
      exact hnone _ (exists_of_kindAt hkind)

/-! ## The policy -/

variable {table : List Region} {threshold expected : Nat}

/-- A table that covers the addresses up to a threshold claims a kind for each of them. -/
theorem exists_claims_of_tiles (h : LowMemoryPolicy.tiles threshold expected table = .ok true)
    (hle : expected ≤ addr) (hlt : addr < threshold) : ∃ kind, Claims table addr kind := by
  induction table generalizing expected with
  | nil =>
    rw [LowMemoryPolicy.tiles, Except.ok.injEq, beq_iff_eq] at h
    omega
  | cons entry rest ih =>
    unfold LowMemoryPolicy.tiles at h
    split_ifs at h with hodd
    · cases h
    obtain ⟨stop, hstop, h⟩ := Outcome.bind_eq_ok.mp h
    obtain ⟨-, rfl⟩ := Region.end?_eq_ok_iff.mp hstop
    by_cases hinside : addr < entry.stop
    · exact ⟨entry.kind, entry, List.mem_cons_self, ⟨by omega, hinside⟩, rfl⟩
    · obtain ⟨kind, hrest⟩ := ih h (Nat.le_of_not_lt hinside)
      exact ⟨kind, (claims_cons entry).mpr (.inr hrest)⟩

/-- The end of a table fits a word, as its start does. -/
theorem threshold_lt_of_tiles (h : LowMemoryPolicy.tiles threshold expected table = .ok true)
    (hexpected : expected < 2 ^ 64) : threshold < 2 ^ 64 := by
  induction table generalizing expected with
  | nil =>
    rw [LowMemoryPolicy.tiles, Except.ok.injEq, beq_iff_eq] at h
    rwa [← h]
  | cons entry rest ih =>
    unfold LowMemoryPolicy.tiles at h
    split_ifs at h with hodd
    · cases h
    obtain ⟨stop, hstop, h⟩ := Outcome.bind_eq_ok.mp h
    obtain ⟨hlt, rfl⟩ := Region.end?_eq_ok_iff.mp hstop
    exact ih h hlt

/-- Nothing that a table claims lies at or above its threshold. -/
theorem lt_threshold_of_claims (h : LowMemoryPolicy.tiles threshold expected table = .ok true)
    (hclaims : Claims table addr kind) : addr < threshold := by
  obtain ⟨entry, hm, hcovers, -⟩ := hclaims
  exact Nat.lt_of_lt_of_le hcovers.2 ((within_of_tiles h).2 entry hm).2

/-- An address that no entry covers has the kind of a hole. -/
theorem kindAt_eq_unspecified {entries : List Region}
    (hnone : ∀ entry ∈ entries, ¬ entry.Covers addr) : kindAt entries addr = .unspecified := by
  by_contra hkind
  obtain ⟨entry, hm, hcovers, -⟩ := exists_of_kindAt hkind
  exact hnone entry hm hcovers

/-- At or above a threshold, what is kept of the resolved entries claims the strictest kind for
every address up to the highest end, also in front of the lowest base. -/
theorem claims_aboveThreshold_resolved {entries resolved : List Region}
    (h : Region.coalesce (pieces entries (bounds entries)) = .ok resolved)
    (hentries : ∀ entry ∈ entries, entry.base < entry.stop) :
    Claims (aboveThreshold threshold resolved) addr kind ↔
      threshold ≤ addr ∧ (∃ entry ∈ entries, addr < entry.stop) ∧ kindAt entries addr = kind := by
  have ho := Region.ordered_coalesce h (ordered_pieces (pairwise_bounds entries))
  have hstarts : ∀ region ∈ resolved, Claims resolved region.base region.kind := fun region hm =>
    ⟨region, hm, Region.covers_base (Region.pos_of_coalesce h region hm), rfl⟩
  rw [claims_aboveThreshold_iff]
  refine and_congr_right fun hle => ?_
  constructor
  · rintro (hclaims | ⟨rfl, first, hfirst, hbelow⟩)
    · exact ((claims_resolved h).mp hclaims).2
    · obtain ⟨hm, hlowest⟩ := first_of_filter ho hfirst
      obtain ⟨-, ⟨entry, hentry, hlt⟩, -⟩ := (claims_resolved h).mp (hstarts first hm)
      refine ⟨⟨entry, hentry, Nat.lt_trans hbelow hlt⟩, kindAt_eq_unspecified ?_⟩
      -- An entry that covers the address would be seen in a region in front of the first.
      intro other hother hcovers
      obtain ⟨region, hregion, hin, -⟩ := (claims_resolved h).mpr
        ⟨⟨other, hother, hcovers.1⟩, ⟨other, hother, hcovers.2⟩, rfl⟩
      have := hlowest region hregion (decide_eq_true (Nat.lt_of_le_of_lt hle hin.2))
      have := hin.1
      omega
  · rintro ⟨⟨entry, hentry, hlt⟩, rfl⟩
    by_cases hbase : ∃ other ∈ entries, other.base ≤ addr
    · exact .inl ((claims_resolved h).mpr ⟨hbase, ⟨entry, hentry, hlt⟩, rfl⟩)
    · right
      have habove : ∀ other ∈ entries, addr < other.base := fun other hother =>
        Nat.lt_of_not_le fun hle => hbase ⟨other, hother, hle⟩
      refine ⟨kindAt_eq_unspecified fun other hother hcovers =>
        hbase ⟨other, hother, hcovers.1⟩, ?_⟩
      -- The region that covers the base of the entry is kept, so there is a first one.
      obtain ⟨region, hregion, hin, -⟩ := (claims_resolved h).mpr
        ⟨⟨entry, hentry, Nat.le_refl _⟩, ⟨entry, hentry, hentries entry hentry⟩, rfl⟩
      have hkept : region ∈ resolved.filter (threshold < ·.stop) := by
        refine List.mem_filter.mpr ⟨hregion, decide_eq_true ?_⟩
        exact Nat.lt_trans (Nat.lt_of_le_of_lt hle (habove entry hentry)) hin.2
      have hfirst := List.head?_eq_some_head (List.ne_nil_of_mem hkept)
      obtain ⟨hm, -⟩ := first_of_filter ho hfirst
      obtain ⟨⟨other, hother, hle'⟩, -⟩ := (claims_resolved h).mp (hstarts _ hm)
      exact ⟨_, hfirst, Nat.lt_of_lt_of_le (habove other hother) hle'⟩

/-- In a forced range every kind becomes reserved. -/
theorem kindForced_of_covers {forced : List Region} {hole : Region} (hm : hole ∈ forced)
    (hcovers : hole.Covers addr) (before : MemoryKind) :
    kindForced forced addr before = .reserved := by
  by_contra hkind
  exact (kindForced_eq rfl hkind).2 hole hm hcovers

/-- Outside the forced ranges every kind stays. -/
theorem kindForced_of_not_covers {forced : List Region}
    (hnone : ∀ hole ∈ forced, ¬ hole.Covers addr) (before : MemoryKind) :
    kindForced forced addr before = before := by
  induction forced generalizing before with
  | nil => rfl
  | cons hole rest ih =>
    obtain ⟨hhole, hrest⟩ := List.forall_mem_cons.mp hnone
    have hsame : Region.kindUnder hole.base hole.stop addr before = before := if_neg hhole
    exact (congrArg (kindForced rest addr) hsame).trans (ih hrest before)

/-- No region is empty once a policy was applied. -/
theorem pos_of_applyPolicy {policy : LowMemoryPolicy} {resolved out : List Region}
    (h : applyPolicy policy resolved = .ok out) : ∀ region ∈ out, 0 < region.length := by
  obtain ⟨spliced, hspliced, h⟩ := Outcome.bind_eq_ok.mp h
  have hpos := Region.pos_of_coalesce hspliced
  clear hspliced
  generalize policy.forced = forced at h
  revert hpos
  induction forced generalizing spliced with
  | nil =>
    cases h
    exact id
  | cons hole rest ih =>
    intro _
    rw [List.foldlM_cons] at h
    obtain ⟨middle, hmiddle, hrest⟩ := Outcome.bind_eq_ok.mp h
    obtain ⟨stop, -, hmiddle⟩ := Outcome.bind_eq_ok.mp hmiddle
    obtain ⟨parts, -, hcoalesce⟩ := Outcome.bind_eq_ok.mp hmiddle
    exact ih middle hrest (Region.pos_of_coalesce hcoalesce)

/-! ## The whole map -/

variable {map : MemoryMap} {policy : LowMemoryPolicy}

/-- Every entry has a byte. -/
theorem base_lt_stop {entry : Region} (hm : entry ∈ entriesOf descriptors config) :
    entry.base < entry.stop := by
  obtain ⟨descriptor, -, hkeep⟩ := List.mem_filterMap.mp hm
  obtain ⟨hkept, rfl⟩ := keep?_eq_some_iff.mp hkeep
  rw [stop_entry hkept]
  have hlength : 0 < descriptor.length.toNat := by
    apply Nat.pos_of_ne_zero
    rw [← UInt64.toNat_zero, Ne, UInt64.toNat_inj]
    exact hkept.1
  have hbase := hkept.2
  have hlimit : config.addressLimit ≤ 2 ^ 64 - 1 := Nat.min_le_right _ _
  unfold Descriptor.clippedStop
  simp only
  omega

/-- Before the forced ranges are reserved, a policy leaves what its table claims below the threshold
and what the firmware says at or above it. -/
theorem claims_spliced {resolved spliced : List Region}
    (hresolved : Region.coalesce (pieces (entriesOf descriptors config)
      (bounds (entriesOf descriptors config))) = .ok resolved)
    (hspliced : Region.coalesce (policy.table ++ aboveThreshold policy.threshold resolved) =
      .ok spliced) :
    Claims spliced addr kind ↔ Claims policy.table addr kind ∨ policy.threshold ≤ addr ∧
      (∃ descriptor ∈ descriptors, descriptor.Kept config.addressLimit ∧
        addr < descriptor.clippedStop config.addressLimit) ∧
      Reported descriptors config.addressLimit addr kind := by
  rw [Region.claims_coalesce hspliced, claims_append,
    claims_aboveThreshold_resolved hresolved fun _ => base_lt_stop, kindAt_eq_iff,
    exists_entry_iff fun _ stop _ => addr < stop]

/-- Under a well-formed policy an address is mapped if and only if some kind is claimed for it
before the forced ranges are reserved. -/
theorem exists_claims_spliced {resolved spliced : List Region}
    (hlow : config.lowMemory = some policy) (hwell : policy.isWellFormed = .ok true)
    (hresolved : Region.coalesce (pieces (entriesOf descriptors config)
      (bounds (entriesOf descriptors config))) = .ok resolved)
    (hspliced : Region.coalesce (policy.table ++ aboveThreshold policy.threshold resolved) =
      .ok spliced) (addr : Nat) :
    (∃ kind, Claims spliced addr kind) ↔ Mapped descriptors config addr := by
  unfold Mapped
  rw [hlow]
  simp only [claims_spliced hresolved hspliced]
  constructor
  · rintro ⟨kind, hclaims | ⟨-, hbelow, -⟩⟩
    · exact .inl (lt_threshold_of_claims hwell hclaims)
    · exact .inr hbelow
  · intro hmapped
    by_cases hbelow : addr < policy.threshold
    · obtain ⟨kind, hclaims⟩ := exists_claims_of_tiles hwell (Nat.zero_le _) hbelow
      exact ⟨kind, .inl hclaims⟩
    · exact ⟨_, .inr ⟨Nat.le_of_not_lt hbelow, hmapped.resolve_left hbelow, kindAt_eq_iff.mp rfl⟩⟩

/-- Without a policy an address is what the firmware says. -/
theorem means_of_none (hlow : config.lowMemory = none) :
    Means descriptors config addr kind ↔ Reported descriptors config.addressLimit addr kind := by
  refine ⟨?_, .firmware fun policy hpolicy => ?_⟩
  · rintro (⟨hpolicy, -, -⟩ | ⟨hpolicy, -, -, -, -⟩ | ⟨-, hreported⟩)
    · rw [hlow] at hpolicy
      cases hpolicy
    · rw [hlow] at hpolicy
      cases hpolicy
    · exact hreported
  · rw [hlow] at hpolicy
    cases hpolicy

/-- An address in a forced range is reserved. -/
theorem means_of_forced (hlow : config.lowMemory = some policy) {hole : Region}
    (hm : hole ∈ policy.forced) (hcovers : hole.Covers addr) :
    Means descriptors config addr kind ↔ kind = .reserved := by
  constructor
  · rintro (_ | ⟨hpolicy, hnone, -, -, -⟩ | ⟨hall, -⟩)
    · rfl
    · rw [hlow] at hpolicy
      cases hpolicy
      exact absurd hcovers (hnone hole hm)
    · exact absurd hcovers ((hall policy hlow).2 hole hm)
  · rintro rfl
    exact .forced hlow hm hcovers

/-- An address in no forced range is what the table says below the threshold, and what the
firmware says at or above it. -/
theorem means_of_unforced (hlow : config.lowMemory = some policy)
    (hnone : ∀ hole ∈ policy.forced, ¬ hole.Covers addr) :
    Means descriptors config addr kind ↔
      addr < policy.threshold ∧ Claims policy.table addr kind ∨
        policy.threshold ≤ addr ∧ Reported descriptors config.addressLimit addr kind := by
  constructor
  · rintro (⟨hpolicy, hm, hcovers⟩ | ⟨hpolicy, -, hbelow, hm, hcovers⟩ | ⟨hall, hreported⟩)
    · rw [hlow] at hpolicy
      cases hpolicy
      exact absurd hcovers (hnone _ hm)
    · rw [hlow] at hpolicy
      cases hpolicy
      exact .inl ⟨hbelow, _, hm, hcovers, rfl⟩
    · exact .inr ⟨(hall policy hlow).1, hreported⟩
  · rintro (⟨hbelow, entry, hm, hcovers, rfl⟩ | ⟨hle, hreported⟩)
    · exact .table hlow hnone hbelow hm hcovers
    · refine .firmware (fun other hother => ?_) hreported
      rw [hlow] at hother
      cases hother
      exact ⟨hle, hnone⟩

/-- The resolved entries, under the policy if there is one, claim for an address what the platform
and the firmware say about it. -/
theorem claims_applied {resolved regions : List Region}
    (hresolved : Region.coalesce (pieces (entriesOf descriptors config)
      (bounds (entriesOf descriptors config))) = .ok resolved)
    (hregions : match config.lowMemory with
      | none => regions = resolved
      | some policy => applyPolicy policy resolved = .ok regions)
    (hpolicy : ∀ policy, config.lowMemory = some policy → policy.isWellFormed = .ok true) :
    Claims regions addr kind ↔
      Mapped descriptors config addr ∧ Means descriptors config addr kind := by
  cases hlow : config.lowMemory with
  | none =>
    rw [hlow] at hregions
    simp only at hregions
    rw [hregions, means_of_none hlow, claims_resolved hresolved,
      exists_entry_iff fun base _ _ => base ≤ addr, exists_entry_iff fun _ stop _ => addr < stop,
      kindAt_eq_iff, ← and_assoc]
    unfold Mapped
    rw [hlow]
  | some policy =>
    rw [hlow] at hregions
    obtain ⟨spliced, hspliced, hforced⟩ := Outcome.bind_eq_ok.mp hregions
    have hwell := hpolicy policy hlow
    have hmapped := exists_claims_spliced hlow hwell hresolved hspliced addr
    rw [claims_forced hforced, ← hmapped]
    by_cases hhole : ∃ hole ∈ policy.forced, hole.Covers addr
    · obtain ⟨hole, hm, hcovers⟩ := hhole
      simp only [kindForced_of_covers hm hcovers]
      rw [means_of_forced hlow hm hcovers, exists_and_right, eq_comm]
    · have hnone : ∀ hole ∈ policy.forced, ¬ hole.Covers addr := fun hole hm hcovers =>
        hhole ⟨hole, hm, hcovers⟩
      simp only [kindForced_of_not_covers hnone, exists_eq_right]
      rw [means_of_unforced hlow hnone]
      constructor
      · intro hclaims
        refine ⟨⟨kind, hclaims⟩, ?_⟩
        rcases (claims_spliced hresolved hspliced).mp hclaims with htable | ⟨hle, -, hreported⟩
        · exact .inl ⟨lt_threshold_of_claims hwell htable, htable⟩
        · exact .inr ⟨hle, hreported⟩
      · rintro ⟨hin, ⟨-, htable⟩ | ⟨hle, hreported⟩⟩
        · exact (claims_spliced hresolved hspliced).mpr (.inl htable)
        · have hbelow := hmapped.mp hin
          unfold Mapped at hbelow
          rw [hlow] at hbelow
          exact (claims_spliced hresolved hspliced).mpr
            (.inr ⟨hle, hbelow.resolve_left (Nat.not_lt_of_le hle), hreported⟩)

/-- What a map claims for an address is what the platform and the firmware say about it. -/
theorem claims_ofFirmware (h : (ofFirmware descriptors config).outcome = .ok (.ok map))
    (hpolicy : ∀ policy, config.lowMemory = some policy → policy.isWellFormed = .ok true) :
    Claims map.regions addr kind ↔
      Mapped descriptors config addr ∧ Means descriptors config addr kind := by
  obtain ⟨-, resolved, hresolved, hregions⟩ := ofFirmware_built h
  exact claims_applied hresolved hregions hpolicy

/-- Every mapped address is below the largest word. -/
theorem Mapped.lt (h : Mapped descriptors config addr)
    (hpolicy : ∀ policy, config.lowMemory = some policy → policy.isWellFormed = .ok true) :
    addr < 2 ^ 64 - 1 := by
  have hkept : (∃ descriptor ∈ descriptors, descriptor.Kept config.addressLimit ∧
      addr < descriptor.clippedStop config.addressLimit) → addr < 2 ^ 64 - 1 := by
    rintro ⟨descriptor, -, -, hlt⟩
    unfold Descriptor.clippedStop at hlt
    omega
  unfold Mapped at h
  cases hlow : config.lowMemory with
  | none =>
    rw [hlow] at h
    exact hkept h.2
  | some policy =>
    rw [hlow] at h
    rcases h with hbelow | h
    · have := threshold_lt_of_tiles (hpolicy policy hlow) (by decide)
      omega
    · exact hkept h

/-- No region of a map is empty. -/
theorem pos_of_ofFirmware (h : (ofFirmware descriptors config).outcome = .ok (.ok map)) :
    ∀ region ∈ map.regions, 0 < region.length := by
  obtain ⟨-, resolved, hresolved, hregions⟩ := ofFirmware_built h
  cases hlow : config.lowMemory with
  | none =>
    rw [hlow] at hregions
    simp only at hregions
    rw [hregions]
    exact Region.pos_of_coalesce hresolved
  | some policy =>
    rw [hlow] at hregions
    exact pos_of_applyPolicy hregions

/-- Every address is of some kind for the platform and the firmware. -/
theorem exists_means (descriptors : List Descriptor) (addr : Nat)
    (hpolicy : ∀ policy, config.lowMemory = some policy → policy.isWellFormed = .ok true) :
    ∃ kind, Means descriptors config addr kind := by
  by_cases hforced : ∃ policy, config.lowMemory = some policy ∧
      ∃ hole ∈ policy.forced, hole.Covers addr
  · obtain ⟨policy, hlow, hole, hm, hcovers⟩ := hforced
    exact ⟨_, .forced hlow hm hcovers⟩
  have hnone : ∀ policy, config.lowMemory = some policy →
      ∀ hole ∈ policy.forced, ¬ hole.Covers addr :=
    fun policy hlow hole hm hcovers => hforced ⟨policy, hlow, hole, hm, hcovers⟩
  by_cases hbelow : ∃ policy, config.lowMemory = some policy ∧ addr < policy.threshold
  · obtain ⟨policy, hlow, hlt⟩ := hbelow
    obtain ⟨kind, entry, hm, hcovers, rfl⟩ :=
      exists_claims_of_tiles (hpolicy policy hlow) (Nat.zero_le _) hlt
    exact ⟨_, .table hlow (hnone policy hlow) hlt hm hcovers⟩
  · refine ⟨_, .firmware (fun policy hlow => ⟨?_, hnone policy hlow⟩) (kindAt_eq_iff.mp rfl)⟩
    exact Nat.le_of_not_lt fun hlt => hbelow ⟨policy, hlow, hlt⟩

/-- The bytes of RAM that the descriptors report, as a number without a bound. -/
def reportedRam (descriptors : List Descriptor) : Nat :=
  ((descriptors.filter fun descriptor => descriptor.code = 1 ∨ descriptor.code = 3).map
    (·.length.toNat)).sum

/-- The observed RAM is the reported RAM, cut off at the largest word. -/
theorem observed_eq (descriptors : List Descriptor) :
    observed descriptors = min (reportedRam descriptors) (2 ^ 64 - 1) := by
  suffices hgeneral : ∀ sum, descriptors.foldl (fun sum descriptor =>
        if descriptor.kind.isRam then Word.addSaturating sum descriptor.length.toNat else sum)
        (min sum (2 ^ 64 - 1)) = min (sum + reportedRam descriptors) (2 ^ 64 - 1) by
    simpa [observed] using hgeneral 0
  induction descriptors with
  | nil => exact fun sum => rfl
  | cons descriptor rest ih =>
    intro sum
    rw [List.foldl_cons]
    by_cases hram : descriptor.kind.isRam = true
    · have hsaturated : Word.addSaturating (min sum (2 ^ 64 - 1)) descriptor.length.toNat =
          min (sum + descriptor.length.toNat) (2 ^ 64 - 1) := by
        unfold Word.addSaturating Word.max
        omega
      have hmore : reportedRam (descriptor :: rest) =
          descriptor.length.toNat + reportedRam rest := by
        simp [reportedRam, Descriptor.isRam_kind_iff.mp hram]
      rw [if_pos hram, hsaturated, ih, hmore, Nat.add_assoc]
    · have hsame : reportedRam (descriptor :: rest) = reportedRam rest := by
        have hcode := mt Descriptor.isRam_kind_iff.mpr hram
        rw [reportedRam, List.filter_cons_of_neg (by simpa using hcode)]
        rfl
      rw [if_neg hram, ih, hsame]

/-- Looking an address up in the map of a firmware list answers what the platform and the firmware
say about it: a region is found if and only if the address is mapped, it covers the address, and
its kind is the one kind that the address has. The observed RAM is that of all descriptors, also
of those that the map leaves out. -/
theorem ofFirmware_pointwise
    (hpolicy : ∀ policy, config.lowMemory = some policy → policy.isWellFormed = .ok true)
    (h : (ofFirmware descriptors config).outcome = .ok (.ok map)) :
    (∀ addr, ∃ found, map.regionContaining addr = .ok found ∧
      (found.isSome ↔ Mapped descriptors config addr) ∧
      ∀ region, found = some region → region ∈ map.regions ∧ region.Covers addr ∧
        ∀ kind, Means descriptors config addr kind ↔ kind = region.kind) ∧
    map.observedBytes = min (reportedRam descriptors) (2 ^ 64 - 1) := by
  have hmap := (ofFirmware_built h).1
  have hclaims : ∀ addr kind, Claims map.regions addr kind ↔
      Mapped descriptors config addr ∧ Means descriptors config addr kind :=
    fun addr kind => claims_ofFirmware h hpolicy
  have hstop : ∀ region ∈ map.regions, region.stop < 2 ^ 64 := by
    intro region hm
    have hlast := Region.covers_last (pos_of_ofFirmware h region hm)
    have := ((hclaims _ _).mp ⟨region, hm, hlast, rfl⟩).1.lt hpolicy
    omega
  constructor
  · intro addr
    obtain ⟨found, hfound, hiff⟩ := exists_regionContaining (ordered_of_ofRegions hmap) hstop addr
    refine ⟨found, hfound, ?_, ?_⟩
    · rw [Option.isSome_iff_exists]
      constructor
      · rintro ⟨region, hregion⟩
        obtain ⟨hm, hcovers⟩ := (hiff region).mp hregion
        exact ((hclaims addr _).mp ⟨region, hm, hcovers, rfl⟩).1
      · intro hmapped
        obtain ⟨kind, hmeans⟩ := exists_means descriptors addr hpolicy
        obtain ⟨region, hm, hcovers, -⟩ := (hclaims addr kind).mpr ⟨hmapped, hmeans⟩
        exact ⟨region, (hiff region).mpr ⟨hm, hcovers⟩⟩
    · intro region hregion
      obtain ⟨hm, hcovers⟩ := (hiff region).mp hregion
      obtain ⟨hmapped, hmeans⟩ := (hclaims addr _).mp ⟨region, hm, hcovers, rfl⟩
      refine ⟨hm, hcovers, fun kind => ⟨fun hkind => ?_, ?_⟩⟩
      · obtain ⟨other, hother, hcovers', rfl⟩ := (hclaims addr kind).mpr ⟨hmapped, hkind⟩
        rw [(hiff other).mpr ⟨hother, hcovers'⟩] at hregion
        rw [Option.some.inj hregion]
      · rintro rfl
        exact hmeans
  · rw [← observed_eq]
    exact congrArg MemoryMap.observedBytes (eq_of_ofRegions hmap)

/-- On a PC a reserved range that overlaps free RAM wins over it, and both count as observed as
far as they are RAM. -/
theorem ofFirmware_pointwise_overlap :
    let descriptors : List Descriptor :=
      [⟨0x400000, 0x200000, 2⟩, ⟨0x100000, 0x400000, 1⟩, ⟨0, 0x9FC00, 1⟩]
    ∃ map, (ofFirmware descriptors .pc).outcome = .ok (.ok map) ∧
      (∃ region, map.regionContaining 0x400000 = .ok (some region) ∧
        ∀ kind, Means descriptors .pc 0x400000 kind ↔ kind = .reserved) ∧
      map.observedBytes = 0x49FC00 := by
  intro descriptors
  have hrun : ((ofFirmware descriptors .pc).andThen fun map => do
      let found ← map.regionContaining 0x400000
      return found.map (·.kind)).outcome = .ok (some (some .reserved)) := by
    decide +kernel
  obtain ⟨map, hmap, hrun⟩ := Traced.of_andThen hrun
  simp only [Traced.outcome_bind, Traced.outcome_liftM, Traced.outcome_pure, Outcome.bind_eq_ok,
    Except.ok.injEq, Option.map_eq_some_iff] at hrun
  obtain ⟨found, hlookup, region, rfl, hkind⟩ := hrun
  have hpolicy : ∀ policy, MapConfig.pc.lowMemory = some policy →
      policy.isWellFormed = .ok true := by
    rintro policy ⟨⟩
    exact LowMemoryPolicy.isWellFormed_pc
  obtain ⟨hpoint, hobserved⟩ := ofFirmware_pointwise hpolicy hmap
  obtain ⟨found, hfound, -, hregion⟩ := hpoint 0x400000
  rw [hlookup, Except.ok.injEq] at hfound
  obtain ⟨-, -, hmeans⟩ := hregion region hfound.symm
  rw [hkind] at hmeans
  exact ⟨map, hmap, ⟨region, hlookup, hmeans⟩, hobserved.trans (by decide)⟩

end MemoryMap

end BootMemory
