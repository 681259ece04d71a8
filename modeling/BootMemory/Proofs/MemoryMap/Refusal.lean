import BootMemory.Proofs.MemoryMap.Canonical

/-!
# When there is no map

A firmware list gives no map for two reasons only: nothing of it is kept under the limit, or nothing
that is mapped may be used. Whether anything may be used is decided at the end, when overlaps are
resolved, descriptors are clipped, the table replaced low memory and the forced ranges are reserved.
So a list of free RAM may be refused, and a list without any may be answered with a map. Address by
address it is simple: `Usable` says it in terms of the list and the configuration alone, and a list
is refused exactly if no address is usable (`ofFirmware_refuses_iff`).
-/

set_option autoImplicit false

namespace BootMemory

namespace MemoryMap

variable {descriptors : List Descriptor} {config : MapConfig} {addr : Nat}

/-- Whether an address may be used as free RAM: no forced range covers it, and it is free RAM for
the table below the threshold, or for the firmware at or above it. -/
structure Usable (descriptors : List Descriptor) (config : MapConfig) (addr : Nat) : Prop where
  unforced : ∀ policy, config.lowMemory = some policy → ∀ hole ∈ policy.forced, ¬ hole.Covers addr
  free : (∃ policy, config.lowMemory = some policy ∧ addr < policy.threshold ∧
      Claims policy.table addr .available) ∨
    (∀ policy, config.lowMemory = some policy → policy.threshold ≤ addr) ∧
      addr < config.addressLimit ∧
      (∃ descriptor ∈ descriptors, descriptor.Covers addr ∧ descriptor.code = 1) ∧
      ∀ descriptor ∈ descriptors, descriptor.Covers addr → descriptor.code = 1

/-! ## Usable addresses -/

/-- Free RAM has one type code. -/
theorem kind_eq_available_iff {descriptor : Descriptor} :
    descriptor.kind = .available ↔ descriptor.code = 1 := by
  rw [← UInt32.toNat_inj]
  show MemoryKind.ofCode descriptor.code.toNat = .available ↔ descriptor.code.toNat = 1
  unfold MemoryKind.ofCode
  split_ifs with hone hthree <;> simp [hone]

/-- Free RAM is the least strict kind that a descriptor can have. -/
theorem kind_eq_available_of_le {descriptor : Descriptor}
    (h : descriptor.kind.precedence ≤ MemoryKind.available.precedence) :
    descriptor.kind = .available :=
  MemoryKind.precedence_injective (Nat.le_antisymm h (precedence_kind_pos descriptor))

/-- The strictest kind of an address is free RAM if a descriptor of free RAM covers it and no
descriptor of another type does. -/
theorem strictest_available_iff : Strictest descriptors addr .available ↔
    (∃ descriptor ∈ descriptors, descriptor.Covers addr ∧ descriptor.code = 1) ∧
      ∀ descriptor ∈ descriptors, descriptor.Covers addr → descriptor.code = 1 := by
  unfold Strictest
  simp only [kind_eq_available_iff]
  refine and_congr_right fun _ => ⟨?_, ?_⟩
  · intro hle descriptor hm hcovers
    apply kind_eq_available_iff.mp
    exact kind_eq_available_of_le (hle descriptor hm hcovers)
  · intro hcode descriptor hm hcovers
    rw [kind_eq_available_iff.mpr (hcode descriptor hm hcovers)]

/-- The firmware reports free RAM for an address below the limit that only descriptors of free RAM
cover. -/
theorem reported_available_iff : Reported descriptors config.addressLimit addr .available ↔
    addr < config.addressLimit ∧
      (∃ descriptor ∈ descriptors, descriptor.Covers addr ∧ descriptor.code = 1) ∧
      ∀ descriptor ∈ descriptors, descriptor.Covers addr → descriptor.code = 1 := by
  rw [← kindAt_eq_iff, ← strictest_available_iff]
  constructor
  · intro hkind
    have hne : kindAt (entriesOf descriptors config) addr ≠ .unspecified := by
      rw [hkind]
      decide
    have hlt := lt_limit_of_kindAt hne
    exact ⟨hlt, (strictest_iff hlt).mpr ⟨hkind, by decide⟩⟩
  · rintro ⟨hlt, hstrictest⟩
    exact ((strictest_iff hlt).mp hstrictest).1

/-- The usable addresses are those that are mapped and of the kind of free RAM in the end. -/
theorem usable_iff : Usable descriptors config addr ↔
    Mapped descriptors config addr ∧ Means descriptors config addr .available := by
  constructor
  · rintro ⟨hunforced, ⟨policy, hlow, hbelow, entry, hm, hcovers, hkind⟩ | ⟨habove, hfree⟩⟩
    · refine ⟨(mapped_of_policy_iff hlow).mpr (.inl hbelow), ?_⟩
      rw [← hkind]
      exact .table hlow (hunforced policy hlow) hbelow hm hcovers
    · have hreported := reported_available_iff.mpr hfree
      constructor
      · apply mapped_of_kindAt
        rw [kindAt_eq_iff.mpr hreported]
        decide
      · exact .firmware (fun policy hlow => ⟨habove policy hlow, hunforced policy hlow⟩) hreported
  · rintro ⟨-, hmeans⟩
    generalize hkind : MemoryKind.available = kind at hmeans
    cases hmeans with
    | forced _ _ _ => cases hkind
    | @table policy entry hlow hforced hbelow hm hcovers =>
      refine ⟨?_, .inl ⟨policy, hlow, hbelow, entry, hm, hcovers, hkind.symm⟩⟩
      intro other hother
      rw [hlow] at hother
      cases hother
      exact hforced
    | firmware hpolicy hreported =>
      rw [← hkind] at hreported
      exact ⟨fun policy hlow => (hpolicy policy hlow).2,
        .inr ⟨fun policy hlow => (hpolicy policy hlow).1, reported_available_iff.mp hreported⟩⟩

/-! ## The three answers -/

/-- There are entries if a descriptor is kept. -/
theorem entriesOf_ne_nil_iff : entriesOf descriptors config ≠ [] ↔
    ∃ descriptor ∈ descriptors, descriptor.Kept config.addressLimit := by
  have hentries := @exists_entry_iff descriptors config fun _ _ _ => True
  simp only [and_true] at hentries
  rw [← hentries]
  exact ⟨List.exists_mem_of_ne_nil _, fun ⟨_, hm⟩ => List.ne_nil_of_mem hm⟩

/-- The regions that are left in the end have free RAM among them if an address is usable. -/
theorem any_available_iff {resolved regions : List Region}
    (hresolved : Region.coalesce (pieces (entriesOf descriptors config)
      (bounds (entriesOf descriptors config))) = .ok resolved)
    (happlied : applied config resolved = .ok regions) (htidy : Tidy regions)
    (hpolicy : ∀ policy, config.lowMemory = some policy → policy.isWellFormed = .ok true) :
    regions.any (·.kind == .available) = true ↔ ∃ addr, Usable descriptors config addr := by
  have hregions := eq_of_applied happlied
  simp only [usable_iff, ← claims_applied hresolved hregions hpolicy, List.any_eq_true, beq_iff_eq]
  constructor
  · rintro ⟨region, hm, hkind⟩
    exact ⟨region.base, region, hm, Region.covers_base (htidy.pos region hm), hkind⟩
  · rintro ⟨addr, region, hm, -, hkind⟩
    exact ⟨region, hm, hkind⟩

/-- A list of which nothing is kept is empty, one of which something is kept but nothing is usable
has no usable memory, and every other list has a map. -/
theorem answer_cases (descriptors : List Descriptor)
    (hpolicy : ∀ policy, config.lowMemory = some policy → policy.isWellFormed = .ok true ∧
      ∀ hole ∈ policy.forced, hole.stop < 2 ^ 64) :
    ((ofFirmware descriptors config).outcome = .ok (.error .empty) ∧
      ¬ ∃ descriptor ∈ descriptors, descriptor.Kept config.addressLimit) ∨
    ((ofFirmware descriptors config).outcome = .ok (.error .noUsableMemory) ∧
      (∃ descriptor ∈ descriptors, descriptor.Kept config.addressLimit) ∧
      ¬ ∃ addr, Usable descriptors config addr) ∨
    ((∃ map, (ofFirmware descriptors config).outcome = .ok (.ok map)) ∧
      (∃ descriptor ∈ descriptors, descriptor.Kept config.addressLimit) ∧
      ∃ addr, Usable descriptors config addr) := by
  rw [ofFirmware_outcome, ← entriesOf_ne_nil_iff]
  by_cases hempty : entriesOf descriptors config = []
  · exact .inl ⟨if_pos (List.isEmpty_iff.mpr hempty), not_not_intro hempty⟩
  obtain ⟨resolved, regions, start, stop, hresolved, happlied, hconnects, htidy, hstop, -⟩ :=
    exists_regions hempty hpolicy
  have husable := any_available_iff hresolved happlied htidy fun policy hlow =>
    (hpolicy policy hlow).1
  right
  rw [if_neg (mt List.isEmpty_iff.mp hempty), hresolved, Outcome.ok_bind, happlied,
    Outcome.ok_bind, ← husable, answerOf]
  split_ifs with hany
  · right
    rw [ofRegions, hconnects.touching hstop]
    exact ⟨⟨_, rfl⟩, hempty, hany⟩
  · exact .inl ⟨rfl, hempty, hany⟩

/-- A firmware list has an answer under any configuration without a policy, or with a well-formed
one whose forced ranges fit a word, whoever listens and with every step checked. It is that the
list is empty exactly if no descriptor with a byte starts below the limit. Of the other lists
those are without usable memory of which no mapped address is free RAM in the end: every address
lies in a forced range, or it is not free RAM in the table below the threshold, nor at or above
the threshold and below the limit free RAM for the firmware and nothing else. All others have a
map. -/
theorem ofFirmware_refuses_iff (descriptors : List Descriptor) (config : MapConfig)
    (hpolicy : ∀ policy, config.lowMemory = some policy → policy.isWellFormed = .ok true ∧
      ∀ hole ∈ policy.forced, hole.stop < 2 ^ 64) :
    ∃ answer, (ofFirmware descriptors config).HasValue answer ∧
      Checked.ofFirmware descriptors config = .ok answer ∧
      (answer = .error .empty ↔
        ¬ ∃ descriptor ∈ descriptors, descriptor.Kept config.addressLimit) ∧
      (answer = .error .noUsableMemory ↔
        (∃ descriptor ∈ descriptors, descriptor.Kept config.addressLimit) ∧
        ¬ ∃ addr, Usable descriptors config addr) ∧
      ((∃ map, answer = .ok map) ↔
        (∃ descriptor ∈ descriptors, descriptor.Kept config.addressLimit) ∧
        ∃ addr, Usable descriptors config addr) ∧
      ∀ addr, Usable descriptors config addr ↔
        Mapped descriptors config addr ∧ Means descriptors config addr .available := by
  obtain ⟨answer, hanswer, hchecked, hobserved, -⟩ := ofFirmware_normal descriptors config hpolicy
  have hcases := answer_cases descriptors hpolicy
  simp only [hanswer, Except.ok.injEq] at hcases
  refine ⟨answer, hobserved, hchecked, ?_, ?_, ?_, fun addr => usable_iff⟩
  · rcases hcases with ⟨rfl, hnone⟩ | ⟨rfl, hkept, -⟩ | ⟨⟨map, rfl⟩, hkept, -⟩
    · exact iff_of_true rfl hnone
    · exact iff_of_false nofun (not_not_intro hkept)
    · exact iff_of_false nofun (not_not_intro hkept)
  · rcases hcases with ⟨rfl, hnone⟩ | ⟨rfl, hkept, hunusable⟩ | ⟨⟨map, rfl⟩, -, husable⟩
    · exact iff_of_false nofun fun h => hnone h.1
    · exact iff_of_true rfl ⟨hkept, hunusable⟩
    · exact iff_of_false nofun fun h => h.2 husable
  · rcases hcases with ⟨rfl, hnone⟩ | ⟨rfl, -, hunusable⟩ | ⟨⟨map, rfl⟩, hkept, husable⟩
    · exact iff_of_false nofun fun h => hnone h.1
    · exact iff_of_false nofun fun h => hunusable h.2
    · exact iff_of_true ⟨map, rfl⟩ ⟨hkept, husable⟩

/-- Free RAM that lies below the threshold or in the forced range is refused, although the list
holds nothing else. On a PC a list of one reserved range has a map, since the table has free RAM. -/
theorem ofFirmware_refuses_iff_forced_ram :
    let policy : LowMemoryPolicy :=
      ⟨0x1000, [⟨0, 0x1000, .reserved⟩], [⟨0x2000, 0x3000, .reserved⟩]⟩
    let ram : List Descriptor := [⟨0, 0x1000, 1⟩, ⟨0x3000, 0x2000, 1⟩, ⟨0x2000, 0x1800, 1⟩]
    let device : List Descriptor := [⟨0xA0000, 0x60000, 2⟩]
    (ofFirmware ram ⟨0xFFFF, some policy⟩).outcome = .ok (.error .noUsableMemory) ∧
      (¬ ∃ addr, Usable ram ⟨0xFFFF, some policy⟩ addr) ∧
      (∃ map, (ofFirmware device .pc).outcome = .ok (.ok map)) ∧
      ∃ addr, Usable device .pc addr := by
  intro policy ram device
  have hrefused : (ofFirmware ram ⟨0xFFFF, some policy⟩).outcome =
      .ok (.error .noUsableMemory) := by
    decide +kernel
  have hrun : ((ofFirmware device .pc).andThen fun map => return map.size).outcome =
      .ok (some 5) := by
    decide +kernel
  obtain ⟨map, hmap, -⟩ := Traced.of_andThen hrun
  have hpolicy : ∀ other, some policy = some other → other.isWellFormed = .ok true ∧
      ∀ hole ∈ other.forced, hole.stop < 2 ^ 64 := by
    rintro other ⟨⟩
    exact ⟨rfl, by decide⟩
  have hpc : ∀ other, MapConfig.pc.lowMemory = some other → other.isWellFormed = .ok true ∧
      ∀ hole ∈ other.forced, hole.stop < 2 ^ 64 := by
    rintro other ⟨⟩
    exact ⟨LowMemoryPolicy.isWellFormed_pc, by decide⟩
  obtain ⟨answer, hanswer, -, -, hunusable, -⟩ :=
    ofFirmware_refuses_iff ram ⟨0xFFFF, some policy⟩ hpolicy
  rw [hanswer.outcome, Except.ok.injEq] at hrefused
  obtain ⟨other, hother, -, -, -, husable, -⟩ := ofFirmware_refuses_iff device .pc hpc
  rw [hother.outcome, Except.ok.injEq] at hmap
  refine ⟨hrefused ▸ hanswer.outcome, (hunusable.mp hrefused).2, ⟨map, hmap ▸ hother.outcome⟩, ?_⟩
  exact (husable.mp ⟨map, hmap⟩).2

end MemoryMap

end BootMemory
