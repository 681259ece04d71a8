import BootMemory.Proofs.MemoryMap.Normal

/-!
# One map for one meaning

Regions that connect two addresses and are tidy are told by their claims: the first region starts
at the lowest address that is claimed, has the kind claimed there, and ends where the kind changes
(`Connects.eq_of_claims`). What the firmware's entries resolve to claims the strictest kind of each
address between the first and the last address that is described, so it depends on nothing but
these kinds, and everything behind it is computed from it. How the firmware cut its descriptors,
in which order it lists them and how often can be seen in the journal, but not in the regions
(`ofFirmware_congr`).
-/

set_option autoImplicit false

namespace BootMemory

/-! ## Regions told by their claims -/

namespace Connects

variable {start stop start' stop' addr : Nat} {kind : MemoryKind} {region : Region}
  {first second rest : List Region}

/-- What is claimed lies between the two addresses. -/
theorem bounds_of_claims (h : Connects start first stop) (hclaims : Claims first addr kind) :
    start ≤ addr ∧ addr < stop := by
  obtain ⟨region, hm, hcovers, -⟩ := hclaims
  obtain ⟨hbase, hstop⟩ := h.bounds_of_mem hm
  exact ⟨Nat.le_trans hbase hcovers.1, Nat.lt_of_lt_of_le hcovers.2 hstop⟩

/-- Between the two addresses everything is covered, and nothing else is. -/
theorem covered_iff (h : Connects start first stop) :
    (∃ region ∈ first, region.Covers addr) ↔ start ≤ addr ∧ addr < stop := by
  constructor
  · rintro ⟨region, hm, hcovers⟩
    exact h.bounds_of_claims ⟨region, hm, hcovers, rfl⟩
  · rintro ⟨hlow, hhigh⟩
    induction first generalizing start with
    | nil =>
      obtain rfl := h
      omega
    | cons region rest ih =>
      obtain ⟨rfl, hrest⟩ := h
      by_cases hinside : addr < region.stop
      · exact ⟨region, List.mem_cons_self, hlow, hinside⟩
      · obtain ⟨other, hm, hcovers⟩ := ih hrest (Nat.le_of_not_lt hinside)
        exact ⟨other, List.mem_cons_of_mem _ hm, hcovers⟩

/-- The regions behind the first one claim what all of them claim from its end on. -/
theorem claims_rest (h : Connects start (region :: rest) stop) :
    Claims rest addr kind ↔ region.stop ≤ addr ∧ Claims (region :: rest) addr kind := by
  rw [claims_cons]
  constructor
  · intro hclaims
    exact ⟨(h.2.bounds_of_claims hclaims).1, .inr hclaims⟩
  · rintro ⟨hle, ⟨hcovers, -⟩ | hclaims⟩
    · exact absurd hcovers.2 (Nat.not_lt_of_le hle)
    · exact hclaims

/-- Inside the first region only its kind is claimed. -/
theorem claims_first (h : Connects start (region :: rest) stop) (hcovers : region.Covers addr) :
    Claims (region :: rest) addr kind ↔ region.kind = kind := by
  rw [claims_cons]
  constructor
  · rintro (⟨-, hkind⟩ | hclaims)
    · exact hkind
    · have := (h.2.bounds_of_claims hclaims).1
      exact absurd hcovers.2 (Nat.not_lt_of_le this)
  · exact fun hkind => .inl ⟨hcovers, hkind⟩

/-- At the end of its first region a tidy list claims another kind, if it claims any. -/
theorem ne_of_claims_stop (h : Connects start (region :: rest) stop)
    (htidy : Tidy (region :: rest)) (hclaims : Claims (region :: rest) region.stop kind) :
    region.kind ≠ kind := by
  have hrest := h.claims_rest.mpr ⟨Nat.le_refl _, hclaims⟩
  cases rest with
  | nil => exact absurd hrest claims_nil
  | cons next others =>
    obtain ⟨-, hothers⟩ := h
    have hcovers : next.Covers region.stop := by
      have := htidy.pos next (List.mem_cons_of_mem _ List.mem_cons_self)
      rw [← hothers.1]
      exact Region.covers_base this
    rw [hothers.claims_first hcovers] at hrest
    exact hrest ▸ (List.isChain_cons_cons.mp htidy.kinds).1

/-- A tidy list ends its first region at the latest where another list, which claims the same and
starts with a region of the same kind at the same address, does. -/
theorem stop_le_of_claims {other : Region} {others : List Region}
    (h : Connects start (region :: rest) stop) (htidy : Tidy (region :: rest))
    (h' : Connects start (other :: others) stop')
    (hkind : other.kind = region.kind) (hclaims : ∀ addr kind,
      Claims (region :: rest) addr kind ↔ Claims (other :: others) addr kind) :
    other.stop ≤ region.stop := by
  by_contra hlt
  have hcovers : other.Covers region.stop := by
    refine ⟨?_, Nat.lt_of_not_le hlt⟩
    rw [h'.1, ← h.1]
    exact Nat.le_add_right _ _
  have hsame := (hclaims region.stop region.kind).mpr ((h'.claims_first hcovers).mpr hkind)
  exact h.ne_of_claims_stop htidy hsame rfl

/-- Tidy lists of connected regions that claim the same are the same. -/
theorem eq_of_claims (hfirst : Connects start first stop) (htidy : Tidy first)
    (hsecond : Connects start' second stop') (htidy' : Tidy second)
    (hclaims : ∀ addr kind, Claims first addr kind ↔ Claims second addr kind) :
    first = second := by
  -- The first regions are the same, so the rest of both lists claims the same.
  induction first generalizing start start' second with
  | nil =>
    cases second with
    | nil => rfl
    | cons other others =>
      have hcovers := Region.covers_base (htidy'.pos other List.mem_cons_self)
      exact absurd ((hclaims _ _).mpr ((hsecond.claims_first hcovers).mpr rfl)) claims_nil
  | cons region rest ih =>
    have hcovers := Region.covers_base (htidy.pos region List.mem_cons_self)
    have hthere := (hclaims _ _).mp ((hfirst.claims_first hcovers).mpr rfl)
    cases second with
    | nil => exact absurd hthere claims_nil
    | cons other others =>
      have hcovers' := Region.covers_base (htidy'.pos other List.mem_cons_self)
      have hhere := (hclaims _ _).mpr ((hsecond.claims_first hcovers').mpr rfl)
      have hbase : region.base = other.base := by
        have hlow := (hfirst.bounds_of_claims hhere).1
        have hlow' := (hsecond.bounds_of_claims hthere).1
        rw [← hfirst.1] at hlow
        rw [← hsecond.1] at hlow'
        exact Nat.le_antisymm hlow hlow'
      have hkind : other.kind = region.kind := by
        rw [← hbase] at hcovers'
        exact (hsecond.claims_first hcovers').mp hthere
      have hstart : start' = start := by rw [← hsecond.1, ← hbase, hfirst.1]
      rw [hstart] at hsecond
      have hstop : region.stop = other.stop := Nat.le_antisymm
        (hsecond.stop_le_of_claims htidy' hfirst hkind.symm
          fun addr kind => (hclaims addr kind).symm)
        (hfirst.stop_le_of_claims htidy hsecond hkind hclaims)
      have hlength : region.length = other.length := by
        unfold Region.stop at hstop
        omega
      have hregion : region = other := by
        show Region.mk region.base region.length region.kind = other
        rw [hbase, hlength, ← hkind]
      rw [hregion] at hfirst htidy hclaims ⊢
      rw [ih hfirst.2 ⟨fun _ hm => htidy.pos _ (List.mem_cons_of_mem _ hm), htidy.kinds.tail⟩
        hsecond.2 ⟨fun _ hm => htidy'.pos _ (List.mem_cons_of_mem _ hm), htidy'.kinds.tail⟩
        fun addr kind => by rw [hfirst.claims_rest, hsecond.claims_rest, hclaims]]

end Connects

namespace MemoryMap

variable {first second descriptors : List Descriptor} {config : MapConfig} {addr : Nat}
  {kind : MemoryKind}

/-! ## The strictest kind of an address -/

/-- Whether a descriptor that covers an address has a kind, and no descriptor that covers the
address has a stricter one. -/
def Strictest (descriptors : List Descriptor) (addr : Nat) (kind : MemoryKind) : Prop :=
  (∃ descriptor ∈ descriptors, descriptor.Covers addr ∧ descriptor.kind = kind) ∧
    ∀ descriptor ∈ descriptors, descriptor.Covers addr →
      descriptor.kind.precedence ≤ kind.precedence

/-- Whether two lists say the same of each address below a limit. -/
def SaySame (limit : Nat) (first second : List Descriptor) : Prop :=
  ∀ addr < limit, ∀ kind, Strictest first addr kind ↔ Strictest second addr kind

/-- No descriptor is of the kind that holes have. -/
theorem precedence_kind_pos (descriptor : Descriptor) : 0 < descriptor.kind.precedence := by
  unfold Descriptor.kind MemoryKind.ofCode
  split_ifs <;> decide

/-- The address limit of every configuration fits a word. -/
theorem addressLimit_lt (config : MapConfig) : config.addressLimit < 2 ^ 64 := by
  unfold MapConfig.addressLimit Word.addSaturating Word.max
  omega

/-- An entry gives the addresses that it covers a kind which holes do not have. -/
theorem kindAt_ne_unspecified {entry : Region} (hm : entry ∈ entriesOf descriptors config)
    (hcovers : entry.Covers addr) : kindAt (entriesOf descriptors config) addr ≠ .unspecified := by
  intro hhole
  have hle := precedence_le_kindAt hm hcovers
  obtain ⟨descriptor, -, hkeep⟩ := List.mem_filterMap.mp hm
  obtain ⟨-, rfl⟩ := keep?_eq_some_iff.mp hkeep
  rw [hhole] at hle
  exact Nat.not_lt_of_le hle (precedence_kind_pos descriptor)

/-- No entry reaches past the limit. -/
theorem lt_limit_of_kindAt (h : kindAt (entriesOf descriptors config) addr ≠ .unspecified) :
    addr < config.addressLimit := by
  obtain ⟨entry, hm, hcovers, -⟩ := exists_of_kindAt h
  obtain ⟨descriptor, -, hkeep⟩ := List.mem_filterMap.mp hm
  have hstop := (@keep?_eq_some addr _ _ _ (addressLimit_lt config) hkeep).1
  exact Nat.lt_of_lt_of_le hcovers.2 hstop

/-- Below the limit the kind that the entries give to an address is the strictest one. -/
theorem strictest_iff (hlt : addr < config.addressLimit) : Strictest descriptors addr kind ↔
    kindAt (entriesOf descriptors config) addr = kind ∧ kind ≠ .unspecified := by
  constructor
  · rintro ⟨⟨descriptor, hm, hcovers, rfl⟩, hstrictest⟩
    obtain ⟨entry, hkeep⟩ := keep?_of_covers hlt hcovers
    obtain ⟨-, hkind, hiff⟩ := @keep?_eq_some addr _ _ _ (addressLimit_lt config) hkeep
    have hentry : entry ∈ entriesOf descriptors config :=
      List.mem_filterMap.mpr ⟨descriptor, hm, hkeep⟩
    have hin := (hiff hlt).mpr hcovers
    have hne := kindAt_ne_unspecified hentry hin
    -- A descriptor with the kind of the entries is not stricter, and not less strict.
    obtain ⟨⟨other, hother, hcovers', hsame⟩, -⟩ := descriptors_of_kindAt rfl hne
    have hle := hstrictest other hother hcovers'
    have hge := precedence_le_kindAt hentry hin
    rw [hsame] at hle
    rw [hkind] at hge
    have heq := MemoryKind.precedence_injective (Nat.le_antisymm hle hge)
    exact ⟨heq, heq ▸ hne⟩
  · rintro ⟨hkind, hne⟩
    exact descriptors_of_kindAt hkind hne

/-- Lists that say the same give each address the same kind. -/
theorem kindAt_congr (h : SaySame config.addressLimit first second) (addr : Nat) :
    kindAt (entriesOf first config) addr = kindAt (entriesOf second config) addr := by
  by_cases hlt : addr < config.addressLimit
  · by_cases hne : kindAt (entriesOf first config) addr = .unspecified
    · by_contra hdiffer
      have hthere := (strictest_iff hlt).mpr ⟨rfl, Ne.symm (hne ▸ hdiffer)⟩
      have hhere := (strictest_iff hlt).mp ((h addr hlt _).mpr hthere)
      exact hdiffer hhere.1
    · have hhere := (strictest_iff hlt).mpr ⟨rfl, hne⟩
      exact ((strictest_iff hlt).mp ((h addr hlt _).mp hhere)).1.symm
  · have hbeyond : ∀ list, kindAt (entriesOf list config) addr = .unspecified := by
      intro list
      by_contra hne
      exact hlt (lt_limit_of_kindAt hne)
    rw [hbeyond, hbeyond]

/-- Some entry starts at an address or below it exactly if an address up to there is described. -/
theorem exists_base_le_iff : (∃ entry ∈ entriesOf descriptors config, entry.base ≤ addr) ↔
    ∃ other ≤ addr, kindAt (entriesOf descriptors config) other ≠ .unspecified := by
  constructor
  · rintro ⟨entry, hm, hle⟩
    exact ⟨entry.base, hle, kindAt_ne_unspecified hm ⟨Nat.le_refl _, base_lt_stop hm⟩⟩
  · rintro ⟨other, hle, hne⟩
    obtain ⟨entry, hm, hcovers, -⟩ := exists_of_kindAt hne
    exact ⟨entry, hm, Nat.le_trans hcovers.1 hle⟩

/-- Some entry ends above an address exactly if an address from there on is described. -/
theorem exists_lt_stop_iff : (∃ entry ∈ entriesOf descriptors config, addr < entry.stop) ↔
    ∃ other ≥ addr, kindAt (entriesOf descriptors config) other ≠ .unspecified := by
  constructor
  · rintro ⟨entry, hm, hlt⟩
    have hbase := base_lt_stop hm
    refine ⟨entry.stop - 1, Nat.le_sub_one_of_lt hlt, kindAt_ne_unspecified hm ?_⟩
    exact ⟨Nat.le_sub_one_of_lt hbase, Nat.sub_one_lt_of_lt hbase⟩
  · rintro ⟨other, hge, hne⟩
    obtain ⟨entry, hm, hcovers, -⟩ := exists_of_kindAt hne
    exact ⟨entry, hm, Nat.lt_of_le_of_lt hge hcovers.2⟩

/-- Without a policy the addresses are mapped from the first that is described to the last. -/
theorem mapped_of_none_iff (hlow : config.lowMemory = none) : Mapped descriptors config addr ↔
    (∃ other ≤ addr, kindAt (entriesOf descriptors config) other ≠ .unspecified) ∧
      ∃ other ≥ addr, kindAt (entriesOf descriptors config) other ≠ .unspecified := by
  unfold Mapped
  rw [hlow, ← exists_base_le_iff, ← exists_lt_stop_iff,
    exists_entry_iff fun base _ _ => base ≤ addr, exists_entry_iff fun _ stop _ => addr < stop]

/-- Under a policy the addresses are mapped up to its threshold, or to the last that is
described. -/
theorem mapped_of_policy_iff {policy : LowMemoryPolicy} (hlow : config.lowMemory = some policy) :
    Mapped descriptors config addr ↔ addr < policy.threshold ∨
      ∃ other ≥ addr, kindAt (entriesOf descriptors config) other ≠ .unspecified := by
  unfold Mapped
  rw [hlow, ← exists_lt_stop_iff, exists_entry_iff fun _ stop _ => addr < stop]

/-- What is described is mapped. -/
theorem mapped_of_kindAt (h : kindAt (entriesOf descriptors config) addr ≠ .unspecified) :
    Mapped descriptors config addr := by
  have hfrom : ∃ other ≥ addr, kindAt (entriesOf descriptors config) other ≠ .unspecified :=
    ⟨addr, Nat.le_refl addr, h⟩
  cases hlow : config.lowMemory with
  | none => exact (mapped_of_none_iff hlow).mpr ⟨⟨addr, Nat.le_refl addr, h⟩, hfrom⟩
  | some policy => exact (mapped_of_policy_iff hlow).mpr (.inr hfrom)

/-- Without entries no address is described. -/
theorem entriesOf_eq_nil_iff : entriesOf descriptors config = [] ↔
    ∀ addr, kindAt (entriesOf descriptors config) addr = .unspecified := by
  constructor
  · intro hnone addr
    rw [hnone]
    rfl
  · intro hnone
    refine List.eq_nil_iff_forall_not_mem.mpr fun entry hm => ?_
    exact kindAt_ne_unspecified hm ⟨Nat.le_refl _, base_lt_stop hm⟩ (hnone _)

/-! ## The whole map -/

/-- The entries of lists that say the same resolve to the same regions. -/
theorem resolved_congr (h : SaySame config.addressLimit first second)
    (hne : entriesOf first config ≠ []) :
    Region.coalesce (pieces (entriesOf first config) (bounds (entriesOf first config))) =
      Region.coalesce (pieces (entriesOf second config) (bounds (entriesOf second config))) := by
  have hkinds := kindAt_congr h
  have hne' : entriesOf second config ≠ [] := by
    intro hnone
    rw [entriesOf_eq_nil_iff] at hnone
    exact hne (entriesOf_eq_nil_iff.mpr fun addr => (hkinds addr).trans (hnone addr))
  obtain ⟨resolved, start, stop, hresolved, hconnects, htidy, -⟩ := exists_resolved hne
  obtain ⟨resolved', start', stop', hresolved', hconnects', htidy', -⟩ := exists_resolved hne'
  rw [hresolved, hresolved', hconnects.eq_of_claims htidy hconnects' htidy']
  intro addr kind
  rw [claims_resolved hresolved, claims_resolved hresolved']
  simp only [exists_base_le_iff, exists_lt_stop_iff, hkinds]

/-- The answers for two numbers of observed bytes have the same regions. -/
theorem answerOf_map_regions (regions : List Region) (observedBytes other : Nat) :
    (answerOf regions observedBytes).map (Except.map MemoryMap.regions) =
      (answerOf regions other).map (Except.map MemoryMap.regions) := by
  unfold answerOf ofRegions
  split_ifs
  · cases touching regions with
    | error fault => rfl
    | ok touch => cases touch <;> rfl
  · rfl

/-- Lists that say the same give the same regions, the same error or the same fault. -/
theorem outcome_map_regions (h : SaySame config.addressLimit first second) :
    (ofFirmware first config).outcome.map (Except.map MemoryMap.regions) =
      (ofFirmware second config).outcome.map (Except.map MemoryMap.regions) := by
  rw [ofFirmware_outcome, ofFirmware_outcome]
  by_cases hempty : entriesOf first config = []
  · have hempty' : entriesOf second config = [] := by
      rw [entriesOf_eq_nil_iff] at hempty ⊢
      exact fun addr => (kindAt_congr h addr).symm.trans (hempty addr)
    rw [hempty, hempty']
    rfl
  · have hempty' : entriesOf second config ≠ [] := by
      intro hnone
      rw [entriesOf_eq_nil_iff] at hempty hnone
      exact hempty fun addr => (kindAt_congr h addr).trans (hnone addr)
    rw [if_neg (mt List.isEmpty_iff.mp hempty), if_neg (mt List.isEmpty_iff.mp hempty'),
      resolved_congr h hempty]
    generalize Region.coalesce (pieces (entriesOf second config)
      (bounds (entriesOf second config))) = resolved
    cases resolved with
    | error fault => rfl
    | ok resolved =>
      rw [Outcome.ok_bind, Outcome.ok_bind]
      cases applied config resolved with
      | error fault => rfl
      | ok regions => exact answerOf_map_regions regions _ _

/-! ## Lists that say the same -/

/-- Whether a descriptor that covers an address has a kind. -/
def Offered (descriptors : List Descriptor) (addr : Nat) (kind : MemoryKind) : Prop :=
  ∃ descriptor ∈ descriptors, descriptor.Covers addr ∧ descriptor.kind = kind

/-- The strictest kind is one of the kinds that are offered. -/
theorem strictest_iff_offered : Strictest descriptors addr kind ↔
    Offered descriptors addr kind ∧
      ∀ other, Offered descriptors addr other → other.precedence ≤ kind.precedence := by
  refine and_congr_right fun _ => ⟨?_, ?_⟩
  · rintro hstrictest other ⟨descriptor, hm, hcovers, rfl⟩
    exact hstrictest descriptor hm hcovers
  · exact fun hstrictest descriptor hm hcovers =>
      hstrictest _ ⟨descriptor, hm, hcovers, rfl⟩

/-- Lists that offer the same kinds for each address say the same. -/
theorem saySame_of_offered (h : ∀ addr kind, Offered first addr kind ↔ Offered second addr kind)
    (limit : Nat) : SaySame limit first second := by
  intro addr _ kind
  simp only [strictest_iff_offered, h]

/-- Two lists offer what each of them does. -/
theorem offered_append : Offered (first ++ second) addr kind ↔
    Offered first addr kind ∨ Offered second addr kind := by
  simp only [Offered, List.mem_append, or_and_right, exists_or]

/-- The first descriptor offers its kind for the addresses that it covers. -/
theorem offered_cons {descriptor : Descriptor} : Offered (descriptor :: descriptors) addr kind ↔
    (descriptor.Covers addr ∧ descriptor.kind = kind) ∨ Offered descriptors addr kind := by
  simp only [Offered, List.mem_cons, exists_eq_or_imp]

/-- The bytes of a descriptor, also those past the largest word. -/
def bytesOf (descriptor : Descriptor) : Region :=
  ⟨descriptor.base.toNat, descriptor.length.toNat, descriptor.kind⟩

/-- Whether descriptors are pieces of a descriptor: they are of its kind, the first starts where
it starts, each of them ends where the next one starts, and the last ends where it ends. -/
def Splits (whole : Descriptor) (parts : List Descriptor) : Prop :=
  (∀ part ∈ parts, part.kind = whole.kind) ∧
    Connects (bytesOf whole).base (parts.map bytesOf) (bytesOf whole).stop

/-- The pieces of a descriptor offer what it offers. -/
theorem offered_of_splits {whole : Descriptor} {parts : List Descriptor} (h : Splits whole parts) :
    Offered parts addr kind ↔ whole.Covers addr ∧ whole.kind = kind := by
  obtain ⟨hkinds, hconnects⟩ := h
  have hcovered : (∃ part ∈ parts, part.Covers addr) ↔ whole.Covers addr := by
    refine Iff.trans ?_ hconnects.covered_iff
    simp only [List.mem_map, exists_exists_and_eq_and]
    exact Iff.rfl
  rw [← hcovered]
  constructor
  · rintro ⟨part, hm, hcovers, rfl⟩
    exact ⟨⟨part, hm, hcovers⟩, (hkinds part hm).symm⟩
  · rintro ⟨⟨part, hm, hcovers⟩, rfl⟩
    exact ⟨part, hm, hcovers, hkinds part hm⟩

/-- Splitting a descriptor of a list changes nothing that the list says. -/
theorem saySame_split {whole : Descriptor} {parts : List Descriptor} (h : Splits whole parts)
    (limit : Nat) : SaySame limit (first ++ whole :: second) (first ++ (parts ++ second)) :=
  saySame_of_offered (fun addr kind => by
    simp only [offered_append, offered_cons, offered_of_splits h]) limit

/-- Neither does a descriptor whose addresses are all covered by one that is as strict. -/
theorem saySame_insert {limit : Nat} {extra : Descriptor}
    (h : ∀ addr < limit, extra.Covers addr →
      ∃ kind, Offered (first ++ second) addr kind ∧ extra.kind.precedence ≤ kind.precedence) :
    SaySame limit (first ++ second) (first ++ extra :: second) := by
  intro addr hlt kind
  have hmore : ∀ other, Offered (first ++ extra :: second) addr other ↔
      (extra.Covers addr ∧ extra.kind = other) ∨ Offered (first ++ second) addr other := by
    intro other
    rw [offered_append, offered_cons, offered_append, or_left_comm]
  simp only [strictest_iff_offered, hmore]
  constructor
  · rintro ⟨hoffered, hstrictest⟩
    refine ⟨.inr hoffered, ?_⟩
    rintro other (⟨hcovers, rfl⟩ | hother)
    · obtain ⟨above, habove, hle⟩ := h addr hlt hcovers
      exact Nat.le_trans hle (hstrictest above habove)
    · exact hstrictest other hother
  · rintro ⟨hoffered, hstrictest⟩
    refine ⟨?_, fun other hother => hstrictest other (.inr hother)⟩
    rcases hoffered with ⟨hcovers, rfl⟩ | hoffered
    · -- The kind that covers the new descriptor is its own, since it is not stricter.
      obtain ⟨above, habove, hle⟩ := h addr hlt hcovers
      have hge := hstrictest above (.inr habove)
      rwa [MemoryKind.precedence_injective (Nat.le_antisymm hle hge)]
    · exact hoffered

/-- Two lists that have answers with the same regions, or the same error. -/
def SameRegions (config : MapConfig) (first second : List Descriptor) : Prop :=
  ∃ one other, (ofFirmware first config).outcome = .ok one ∧
    (ofFirmware second config).outcome = .ok other ∧
    one.map MemoryMap.regions = other.map MemoryMap.regions

/-- Lists that say the same have answers with the same regions. -/
theorem sameRegions_of_saySame
    (hpolicy : ∀ policy, config.lowMemory = some policy → policy.isWellFormed = .ok true ∧
      ∀ hole ∈ policy.forced, hole.stop < 2 ^ 64)
    (h : SaySame config.addressLimit first second) : SameRegions config first second := by
  obtain ⟨one, hone, -⟩ := ofFirmware_normal first config hpolicy
  obtain ⟨other, hother, -⟩ := ofFirmware_normal second config hpolicy
  have hsame := outcome_map_regions h
  rw [hone, hother] at hsame
  exact ⟨one, other, hone, hother, Except.ok.inj hsame⟩

/-- The observed RAM does not depend on the order of a list. -/
theorem observed_perm (h : first.Perm second) : observed first = observed second := by
  have hsum : reportedRam first = reportedRam second := ((h.filter _).map _).sum_nat
  rw [observed_eq, observed_eq, hsum]

/-- Lists with the same regions and the same observed RAM have the same answer. -/
theorem exists_answer_of_sameRegions (h : SameRegions config first second)
    (hobserved : observed first = observed second) :
    ∃ answer, (ofFirmware first config).outcome = .ok answer ∧
      (ofFirmware second config).outcome = .ok answer := by
  obtain ⟨one, other, hone, hother, hsame⟩ := h
  cases one with
  | error error =>
    cases other with
    | error error' =>
      cases hsame
      exact ⟨_, hone, hother⟩
    | ok map => cases hsame
  | ok map =>
    cases other with
    | error error => cases hsame
    | ok map' =>
      have hmap := (ofFirmware_built hone).1
      have hmap' := (ofFirmware_built hother).1
      rw [← Except.ok.inj hsame, ← hobserved, hmap] at hmap'
      rw [Except.ok.inj hmap'] at hone
      exact ⟨_, hone, hother⟩

/-- What a firmware list becomes depends only on the strictest kind of each address below the limit.
Neither the order of the descriptors nor repetitions matter, a descriptor may be split into pieces
that touch, and one may be added whose addresses all have a kind that is as strict: the regions or
the error stay the same. A list in another order has the same answer with the observed RAM. -/
theorem ofFirmware_congr (config : MapConfig)
    (hpolicy : ∀ policy, config.lowMemory = some policy → policy.isWellFormed = .ok true ∧
      ∀ hole ∈ policy.forced, hole.stop < 2 ^ 64) :
    (∀ first second, SaySame config.addressLimit first second →
      SameRegions config first second) ∧
    (∀ first second : List Descriptor, first.Perm second →
      ∃ answer, (ofFirmware first config).outcome = .ok answer ∧
        (ofFirmware second config).outcome = .ok answer) ∧
    (∀ first second : List Descriptor, (∀ descriptor, descriptor ∈ first ↔ descriptor ∈ second) →
      SameRegions config first second) ∧
    (∀ before whole parts after, Splits whole parts →
      SameRegions config (before ++ whole :: after) (before ++ (parts ++ after))) ∧
    ∀ before extra after, (∀ addr < config.addressLimit, extra.Covers addr →
        ∃ kind, Offered (before ++ after) addr kind ∧ extra.kind.precedence ≤ kind.precedence) →
      SameRegions config (before ++ after) (before ++ extra :: after) := by
  have hmembers : ∀ first second : List Descriptor,
      (∀ descriptor, descriptor ∈ first ↔ descriptor ∈ second) →
        SaySame config.addressLimit first second := fun first second hm =>
    saySame_of_offered (fun addr kind => by simp only [Offered, hm]) _
  refine ⟨fun first second => sameRegions_of_saySame hpolicy, ?_, ?_, ?_, ?_⟩
  · intro first second hperm
    exact exists_answer_of_sameRegions
      (sameRegions_of_saySame hpolicy (hmembers _ _ fun _ => hperm.mem_iff)) (observed_perm hperm)
  · exact fun first second hm => sameRegions_of_saySame hpolicy (hmembers first second hm)
  · exact fun before whole parts after hsplits =>
      sameRegions_of_saySame hpolicy (saySame_split hsplits _)
  · exact fun before extra after hcovered =>
      sameRegions_of_saySame hpolicy (saySame_insert hcovered)

/-- On a PC free RAM may be reported as two pieces that meet in the reserved range, and in another
order: the five regions above the table stay the same, although there are other bounds to cut at. -/
theorem ofFirmware_congr_split_ram :
    let device : Descriptor := ⟨0x800000, 0x100000, 2⟩
    let whole : Descriptor := ⟨0x100000, 0x1F00000, 1⟩
    let parts : List Descriptor := [⟨0x100000, 0xE80000, 1⟩, ⟨0xF80000, 0x1080000, 1⟩]
    SameRegions .pc [device, whole] (device :: parts) ∧
      ∃ map, (ofFirmware [device, whole] .pc).outcome = .ok (.ok map) ∧
        (ofFirmware [whole, device] .pc).outcome = .ok (.ok map) ∧ map.size = 10 := by
  intro device whole parts
  have hpolicy : ∀ policy, MapConfig.pc.lowMemory = some policy →
      policy.isWellFormed = .ok true ∧ ∀ hole ∈ policy.forced, hole.stop < 2 ^ 64 := by
    rintro policy ⟨⟩
    exact ⟨LowMemoryPolicy.isWellFormed_pc, by decide⟩
  obtain ⟨-, hperm, -, hsplit, -⟩ := ofFirmware_congr .pc hpolicy
  have hparts : Splits whole parts := by
    refine ⟨by decide, ?_⟩
    rw [List.map_cons, Connects.cons_iff, List.map_cons, Connects.cons_iff, List.map_nil,
      Connects.nil_iff]
    exact ⟨by decide, by decide, by decide⟩
  refine ⟨hsplit [device] whole parts [] hparts, ?_⟩
  have hrun : ((ofFirmware [device, whole] .pc).andThen fun map => return map.size).outcome =
      .ok (some 10) := by
    decide +kernel
  obtain ⟨map, hmap, hsize⟩ := Traced.of_andThen hrun
  obtain ⟨answer, hanswer, hswapped⟩ := hperm _ _ (List.Perm.swap whole device [])
  rw [hmap, Except.ok.injEq] at hanswer
  rw [← hanswer] at hswapped
  exact ⟨map, hmap, hswapped, Except.ok.inj hsize⟩

end MemoryMap

end BootMemory
