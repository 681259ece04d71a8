import BootMemory.Proofs.Journal
import BootMemory.Proofs.MemoryMap.Checked
import BootMemory.Proofs.MemoryMap.Connected
import BootMemory.Proofs.MemoryMap.Meaning
import Mathlib.Order.Bounds.Basic

/-!
# The normal form of a map

Each step that makes a memory map is given regions that connect two addresses and leaves regions
that connect two addresses: the pieces between the bounds connect the lowest bound with the highest,
a table connects zero with its threshold, what a policy keeps connects the threshold with the end,
and reserving a range moves nothing. So no step can fault, and the map that comes out is normal.
-/

set_option autoImplicit false

namespace BootMemory.MemoryMap

variable {descriptors : List Descriptor} {config : MapConfig} {start stop : Nat}
  {regions : List Region}

/-! ## The steps -/

/-- The pieces between ascending cuts connect the first cut with the last. -/
theorem connects_pieces (entries : List Region) {low : Nat} {cuts : List Nat}
    (hcuts : (low :: cuts).Pairwise (· < ·)) :
    Connects low (pieces entries (low :: cuts)) ((low :: cuts).getLast (List.cons_ne_nil _ _)) := by
  induction cuts generalizing low with
  | nil => exact rfl
  | cons high rest ih =>
    obtain ⟨hlow, hrest⟩ := List.pairwise_cons.mp hcuts
    have hlt := hlow high List.mem_cons_self
    have hstop : Region.stop ⟨low, high - low, kindOver entries low high⟩ = high := by
      unfold Region.stop
      simp only
      omega
    rw [pieces, Connects.cons_iff, hstop, List.getLast_cons (List.cons_ne_nil _ _)]
    exact ⟨rfl, ih hrest⟩

/-- The pieces of entries that are not empty connect the lowest base with the highest end. -/
theorem connects_pieces_bounds {entries : List Region} (hne : entries ≠ [])
    (hpos : ∀ entry ∈ entries, entry.base < entry.stop) : ∃ first last,
      IsLeast {base | ∃ entry ∈ entries, base = entry.base} first ∧
      IsGreatest {stop | ∃ entry ∈ entries, stop = entry.stop} last ∧
      Connects first (pieces entries (bounds entries)) last := by
  obtain ⟨entry, hentry⟩ := List.exists_mem_of_ne_nil _ hne
  have hbounds : bounds entries ≠ [] :=
    List.ne_nil_of_mem (mem_bounds.mpr ⟨entry, hentry, .inl rfl⟩)
  obtain ⟨first, rest, hcuts⟩ := List.exists_cons_of_ne_nil hbounds
  have hascending := pairwise_bounds entries
  rw [hcuts] at hascending
  have hweak : (first :: rest).Pairwise (· ≤ ·) := hascending.imp Nat.le_of_lt
  have hmem := List.getLast_mem (List.cons_ne_nil first rest)
  have hconnects := connects_pieces entries hascending
  generalize hlast : (first :: rest).getLast (List.cons_ne_nil first rest) = last
    at hmem hconnects
  have hbetween : ∀ bound, (∃ entry ∈ entries, bound = entry.base ∨ bound = entry.stop) →
      first ≤ bound ∧ bound ≤ last := by
    intro bound hbound
    rw [← mem_bounds, hcuts] at hbound
    exact ⟨hweak.rel_head hbound, hlast ▸ hweak.rel_getLast hbound⟩
  refine ⟨first, last, ⟨?_, ?_⟩, ⟨?_, ?_⟩, by rwa [hcuts]⟩
  · obtain ⟨other, hother, hbase | hend⟩ := mem_bounds.mp (hcuts ▸ List.mem_cons_self)
    · exact ⟨other, hother, hbase⟩
    · have := hpos other hother
      have := (hbetween _ ⟨other, hother, .inl rfl⟩).1
      omega
  · rintro base ⟨other, hother, rfl⟩
    exact (hbetween _ ⟨other, hother, .inl rfl⟩).1
  · obtain ⟨other, hother, hbase | hend⟩ := mem_bounds.mp (hcuts ▸ hmem)
    · have := hpos other hother
      have := (hbetween _ ⟨other, hother, .inr rfl⟩).2
      omega
    · exact ⟨other, hother, hend⟩
  · rintro stop ⟨other, hother, rfl⟩
    exact (hbetween _ ⟨other, hother, .inr rfl⟩).2

/-- A table that passes its check connects zero with the threshold. -/
theorem connects_of_tiles {threshold expected : Nat} {table : List Region}
    (h : LowMemoryPolicy.tiles threshold expected table = .ok true) :
    Connects expected table threshold := by
  induction table generalizing expected with
  | nil =>
    rw [LowMemoryPolicy.tiles, Except.ok.injEq, beq_iff_eq] at h
    exact h
  | cons entry rest ih =>
    unfold LowMemoryPolicy.tiles at h
    split_ifs at h with hodd
    · cases h
    obtain ⟨last, hlast, h⟩ := Outcome.bind_eq_ok.mp h
    obtain ⟨-, rfl⟩ := Region.end?_eq_ok_iff.mp hlast
    rw [not_or, not_not] at hodd
    exact ⟨hodd.1, ih h⟩

/-- Of connected regions, those that end above a threshold connect it, if they are cut there, with
the end. -/
theorem connects_clipped {threshold : Nat} (h : Connects start regions stop) :
    Connects (max start threshold) ((regions.filter (threshold < ·.stop)).map (clipped threshold))
      (max stop threshold) := by
  induction regions generalizing start with
  | nil =>
    obtain rfl := h
    exact rfl
  | cons region rest ih =>
    obtain ⟨rfl, hrest⟩ := h
    have hbase : region.base ≤ region.stop := Nat.le_add_right _ _
    have hih := ih hrest
    rw [List.filter_cons]
    split_ifs with hlt
    · rw [decide_eq_true_eq] at hlt
      have hend : (clipped threshold region).stop = max region.stop threshold := by
        unfold clipped
        rw [Region.stop]
        simp only
        omega
      rw [List.map_cons, Connects.cons_iff, hend]
      exact ⟨rfl, hih⟩
    · rw [decide_eq_true_eq] at hlt
      have hsame : max region.base threshold = max region.stop threshold := by omega
      rwa [hsame]

/-- What a policy keeps of connected regions connects its threshold with the end. -/
theorem connects_aboveThreshold {threshold : Nat} (h : Connects start regions stop)
    (hlt : start < stop) :
    Connects threshold (aboveThreshold threshold regions) (max stop threshold) := by
  have hclipped : Connects (max start threshold)
      ((regions.filter (threshold < ·.stop)).map (clipped threshold)) (max stop threshold) :=
    connects_clipped h
  unfold aboveThreshold
  cases hkept : regions.filter (threshold < ·.stop) with
  | nil =>
    rw [hkept] at hclipped
    have hsame : max start threshold = max stop threshold := hclipped
    show threshold = max stop threshold
    omega
  | cons first rest =>
    rw [hkept] at hclipped
    have hfirst : max first.base threshold = max start threshold := hclipped.1
    simp only
    split_ifs with hgap
    · have hend : Region.stop ⟨threshold, first.base - threshold, .unspecified⟩ =
          max start threshold := by
        unfold Region.stop
        simp only
        omega
      rw [Connects.cons_iff, hend]
      exact ⟨rfl, hclipped⟩
    · have hsame : max start threshold = threshold := by omega
      rwa [hsame] at hclipped

/-- Under a well-formed policy whose forced ranges fit a word, connected regions become regions that
connect zero with the threshold or the end, whichever is higher. -/
theorem connects_applyPolicy {policy : LowMemoryPolicy} (hwell : policy.isWellFormed = .ok true)
    (hforced : ∀ hole ∈ policy.forced, hole.stop < 2 ^ 64) (h : Connects start regions stop)
    (hlt : start < stop) (hstop : stop < 2 ^ 64) :
    ∃ out, applyPolicy policy regions = .ok out ∧ Connects 0 out (max stop policy.threshold) ∧
      Tidy out := by
  have hmax : max stop policy.threshold < 2 ^ 64 :=
    Nat.max_lt.mpr ⟨hstop, threshold_lt_of_tiles hwell (by decide)⟩
  have hjoined : Connects 0 (policy.table ++ aboveThreshold policy.threshold regions)
      (max stop policy.threshold) :=
    Connects.append_iff.mpr ⟨_, connects_of_tiles hwell, connects_aboveThreshold h hlt⟩
  obtain ⟨spliced, hspliced, hconnects, htidy⟩ := Region.coalesce_of_connects hmax hjoined
  -- Each forced range leaves regions that connect the same addresses.
  have hall : ∀ forced : List Region, (∀ hole ∈ forced, hole.stop < 2 ^ 64) → ∀ done,
      Connects 0 done (max stop policy.threshold) → Tidy done →
      ∃ out, forced.foldlM (fun done hole => do
          let last ← hole.end?
          Region.reserve hole.base last done) done = .ok out ∧
        Connects 0 out (max stop policy.threshold) ∧ Tidy out := by
    intro forced
    induction forced with
    | nil => exact fun _ done hdone hclean => ⟨done, rfl, hdone, hclean⟩
    | cons hole rest ih =>
      intro hfits done hdone hclean
      obtain ⟨hhole, hrest⟩ := List.forall_mem_cons.mp hfits
      obtain ⟨middle, hmiddle, hconnects, hclean⟩ :=
        Region.reserve_of_connects (Nat.le_add_right hole.base hole.length) hmax hdone
      obtain ⟨out, hout, h⟩ := ih hrest middle hconnects hclean
      refine ⟨out, ?_, h⟩
      rw [List.foldlM_cons, Region.end?_of_lt hhole, Outcome.ok_bind]
      exact (congrArg (· >>= _) hmiddle).trans hout
  obtain ⟨out, hout, h⟩ := hall policy.forced hforced spliced hconnects htidy
  refine ⟨out, ?_, h⟩
  rw [applyPolicy, hspliced, Outcome.ok_bind]
  exact hout

/-! ## The whole map -/

/-- The bases of the descriptors that are kept under a limit. -/
def keptBases (descriptors : List Descriptor) (limit : Nat) : Set Nat :=
  {base | ∃ descriptor ∈ descriptors, descriptor.Kept limit ∧ base = descriptor.base.toNat}

/-- The ends of the descriptors that are kept, cut off at the limit. -/
def clippedStops (descriptors : List Descriptor) (limit : Nat) : Set Nat :=
  {stop | ∃ descriptor ∈ descriptors, descriptor.Kept limit ∧
    stop = descriptor.clippedStop limit}

/-- The two addresses that a map has to connect. Without a policy these are the least base that is
kept and the greatest end. With one the map starts at zero and reaches the threshold at least. -/
def Spans (descriptors : List Descriptor) (config : MapConfig) (start stop : Nat) : Prop :=
  ∃ highest, IsGreatest (clippedStops descriptors config.addressLimit) highest ∧
    match config.lowMemory with
    | none => IsLeast (keptBases descriptors config.addressLimit) start ∧ stop = highest
    | some policy => start = 0 ∧ stop = max highest policy.threshold

/-- A map in normal form that connects two addresses. -/
structure Normal (map : MemoryMap) (start stop : Nat) : Prop where
  ne_nil : map.regions ≠ []
  pos : ∀ region ∈ map.regions, 0 < region.length
  fits : ∀ region ∈ map.regions, region.stop < 2 ^ 64
  ascending : map.regions.Pairwise fun a b => a.base < b.base
  touching : map.regions.IsChain fun a b => a.stop = b.base
  kinds : map.regions.IsChain fun a b => a.kind ≠ b.kind
  span : map.span = .ok (start, stop)
  total : (map.regions.map (·.length)).sum = stop - start

/-- Tidy regions that connect two addresses within a word are a map in normal form. -/
theorem normal_of_connects (h : Connects start regions stop) (htidy : Tidy regions)
    (hne : regions ≠ []) (hstop : stop < 2 ^ 64) (observedBytes : Nat) :
    Normal ⟨regions, observedBytes⟩ start stop where
  ne_nil := hne
  pos := htidy.pos
  fits region hm := Nat.lt_of_le_of_lt (h.bounds_of_mem hm).2 hstop
  ascending := h.ascending htidy.pos
  touching := h.isChain
  kinds := htidy.kinds
  span := h.span hstop hne observedBytes
  total := by
    have := h.add_sum
    simp only
    omega

/-- The entries end within a word. -/
theorem stop_entry_lt {entry : Region} (hm : entry ∈ entriesOf descriptors config) :
    entry.stop < 2 ^ 64 := by
  obtain ⟨descriptor, -, hkeep⟩ := List.mem_filterMap.mp hm
  obtain ⟨hkept, rfl⟩ := keep?_eq_some_iff.mp hkeep
  rw [stop_entry hkept]
  unfold Descriptor.clippedStop
  omega

/-- If any descriptor is kept, the entries resolve to regions that connect the least base with the
greatest end. -/
theorem exists_resolved (hne : entriesOf descriptors config ≠ []) : ∃ resolved first last,
    Region.coalesce (pieces (entriesOf descriptors config)
      (bounds (entriesOf descriptors config))) = .ok resolved ∧
    Connects first resolved last ∧ Tidy resolved ∧ first < last ∧ last < 2 ^ 64 ∧
    IsLeast (keptBases descriptors config.addressLimit) first ∧
    IsGreatest (clippedStops descriptors config.addressLimit) last := by
  obtain ⟨first, last, hleast, hgreatest, hpieces⟩ :=
    connects_pieces_bounds hne fun entry => base_lt_stop
  have hword : last < 2 ^ 64 := by
    obtain ⟨entry, hentry, hlast⟩ := hgreatest.1
    rw [hlast]
    exact stop_entry_lt hentry
  have hlt : first < last := by
    obtain ⟨entry, hentry, hfirst⟩ := hleast.1
    rw [hfirst]
    exact Nat.lt_of_lt_of_le (base_lt_stop hentry) (hgreatest.2 ⟨entry, hentry, rfl⟩)
  have hbases : {base | ∃ entry ∈ entriesOf descriptors config, base = entry.base} =
      keptBases descriptors config.addressLimit :=
    Set.ext fun bound => exists_entry_iff fun base _ _ => bound = base
  have hstops : {stop | ∃ entry ∈ entriesOf descriptors config, stop = entry.stop} =
      clippedStops descriptors config.addressLimit :=
    Set.ext fun bound => exists_entry_iff fun _ stop _ => bound = stop
  obtain ⟨resolved, hresolved, hconnects, htidy⟩ := Region.coalesce_of_connects hword hpieces
  exact ⟨resolved, first, last, hresolved, hconnects, htidy, hlt, hword, hbases ▸ hleast,
    hstops ▸ hgreatest⟩

/-- The resolved regions with the policy of a configuration applied, if there is one. -/
def applied (config : MapConfig) (resolved : List Region) : Except Fault (List Region) :=
  match config.lowMemory with
  | none => .ok resolved
  | some policy => applyPolicy policy resolved

/-- Regions with the policy applied are the resolved ones, or what the policy makes of them. -/
theorem eq_of_applied {resolved : List Region} (h : applied config resolved = .ok regions) :
    match config.lowMemory with
    | none => regions = resolved
    | some policy => applyPolicy policy resolved = .ok regions := by
  unfold applied at h
  cases hlow : config.lowMemory with
  | none =>
    rw [hlow] at h
    exact (Except.ok.inj h).symm
  | some policy =>
    rw [hlow] at h
    exact h

/-- The answer for the regions that are left in the end. -/
def answerOf (regions : List Region) (observedBytes : Nat) :
    Except Fault (Except MemoryMapError MemoryMap) :=
  if regions.any (·.kind == .available) then do
    let map ← ofRegions regions observedBytes
    return .ok map
  else
    return .error .noUsableMemory

/-- The answer of a run, step by step, without its records. -/
theorem ofFirmware_outcome (descriptors : List Descriptor) (config : MapConfig) :
    (ofFirmware descriptors config).outcome =
      if (entriesOf descriptors config).isEmpty then .ok (.error .empty)
      else (do
        let resolved ← Region.coalesce (pieces (entriesOf descriptors config)
          (bounds (entriesOf descriptors config)))
        let regions ← applied config resolved
        answerOf regions (observed descriptors)) := by
  unfold ofFirmware applied answerOf entriesOf
  simp only [Traced.outcome_bind, Traced.outcome_reportAll, Outcome.ok_bind]
  split_ifs with hempty hover
  · rfl
  all_goals
    simp only [Traced.outcome_bind, Traced.outcome_report, Traced.outcome_reportAll,
      Traced.outcome_liftM, Outcome.ok_bind]
    congr 1
    funext resolved
    cases config.lowMemory <;>
      simp only [Traced.outcome_pure, Traced.outcome_liftM, Traced.outcome_bind,
        apply_ite Traced.outcome, Outcome.ok_bind, Outcome.pure_eq_ok]

/-- Checking every bound on the way changes no answer. -/
theorem Checked.ofFirmware_eq (descriptors : List Descriptor) (config : MapConfig) :
    Checked.ofFirmware descriptors config = (MemoryMap.ofFirmware descriptors config).outcome := by
  rw [ofFirmware_outcome]
  obtain ⟨kept, hkept, hentries⟩ := entries_eq config.addressLimit descriptors
  have hsame : kept.reduceOption = entriesOf descriptors config := hentries
  unfold Checked.ofFirmware
  rw [hkept, Outcome.ok_bind, hsame]
  simp only
  split_ifs with hempty
  · rfl
  rw [List.isEmpty_iff] at hempty
  obtain ⟨resolved, first, last, hresolved, hconnects, -, -, hword, -, -⟩ :=
    exists_resolved hempty
  have hfit : ∀ region ∈ resolved, region.stop < 2 ^ 64 := fun region hm =>
    Nat.lt_of_le_of_lt (hconnects.bounds_of_mem hm).2 hword
  rw [bounds_eq fun entry hm => stop_entry_lt hm, Outcome.ok_bind,
    pieces_eq _ (pairwise_bounds _), Outcome.ok_bind, hresolved, Outcome.ok_bind, Outcome.ok_bind]
  unfold applied
  cases config.lowMemory with
  | none => rfl
  | some policy =>
    simp only [applyPolicy_eq hfit]
    rfl

/-- What is reported about a descriptor can be written out. -/
theorem legible_screening (limit : Nat) (descriptor : Descriptor) :
    ∀ record ∈ screening limit descriptor, record.Legible := by
  unfold screening
  simp only
  split_ifs
  · exact List.forall_mem_singleton.mpr ⟨_, rfl⟩
  · exact List.forall_mem_singleton.mpr ⟨_, rfl⟩
  · exact List.forall_mem_singleton.mpr ⟨_, rfl⟩
  · exact fun _ hm => nomatch hm

/-- What is reported about the holes of a map can be written out. -/
theorem legible_holes (regions : List Region) : ∀ record ∈ holes regions, record.Legible := by
  intro record hm
  obtain ⟨hole, -, rfl⟩ := List.mem_map.mp hm
  exact ⟨_, rfl⟩

/-- Making a map writes records that anybody can read. -/
theorem legible_ofFirmware (descriptors : List Descriptor) (config : MapConfig) :
    (ofFirmware descriptors config).Legible := by
  have hscreening : ∀ record ∈ descriptors.flatMap (screening config.addressLimit),
      record.Legible := by
    intro record hm
    obtain ⟨descriptor, -, hm⟩ := List.mem_flatMap.mp hm
    exact legible_screening _ descriptor record hm
  have hanswer : ∀ regions : List Region,
      (if regions.any (·.kind == .available) then do
        let map ← ofRegions regions (observed descriptors)
        return .ok map
      else
        return .error .noUsableMemory : Traced (Except MemoryMapError MemoryMap)).Legible := by
    intro regions
    split_ifs
    · exact Traced.legible_bind (Traced.legible_liftM _) fun map => Traced.legible_pure _
    · exact Traced.legible_pure _
  unfold ofFirmware
  refine Traced.legible_bind (Traced.legible_reportAll hscreening) fun _ => ?_
  simp only
  -- The warning about overlaps comes in front of the same run.
  split_ifs
  · exact Traced.legible_pure _
  · refine Traced.legible_bind (Traced.legible_report rfl) fun _ => ?_
    refine Traced.legible_bind (Traced.legible_reportAll (legible_holes _)) fun _ => ?_
    refine Traced.legible_bind (Traced.legible_liftM _) fun resolved => ?_
    cases config.lowMemory with
    | none => exact hanswer resolved
    | some policy => exact Traced.legible_bind (Traced.legible_liftM _) hanswer
  · refine Traced.legible_bind (Traced.legible_reportAll (legible_holes _)) fun _ => ?_
    refine Traced.legible_bind (Traced.legible_liftM _) fun resolved => ?_
    cases config.lowMemory with
    | none => exact hanswer resolved
    | some policy => exact Traced.legible_bind (Traced.legible_liftM _) hanswer

/-- If any descriptor is kept, the regions that are left in the end connect the addresses that they
have to connect. -/
theorem exists_regions (hne : entriesOf descriptors config ≠ [])
    (hpolicy : ∀ policy, config.lowMemory = some policy → policy.isWellFormed = .ok true ∧
      ∀ hole ∈ policy.forced, hole.stop < 2 ^ 64) :
    ∃ resolved regions start stop,
      Region.coalesce (pieces (entriesOf descriptors config)
        (bounds (entriesOf descriptors config))) = .ok resolved ∧
      applied config resolved = .ok regions ∧ Connects start regions stop ∧ Tidy regions ∧
      stop < 2 ^ 64 ∧ Spans descriptors config start stop := by
  obtain ⟨resolved, first, last, hresolved, hconnects, htidy, hlt, hword, hleast, hgreatest⟩ :=
    exists_resolved hne
  unfold applied Spans
  cases hlow : config.lowMemory with
  | none =>
    exact ⟨resolved, resolved, first, last, hresolved, rfl, hconnects, htidy, hword, last,
      hgreatest, hleast, rfl⟩
  | some policy =>
    obtain ⟨hwell, hforced⟩ := hpolicy policy hlow
    obtain ⟨out, hout, hconnects, htidy⟩ := connects_applyPolicy hwell hforced hconnects hlt hword
    exact ⟨resolved, out, 0, max last policy.threshold, hresolved, hout, hconnects, htidy,
      Nat.max_lt.mpr ⟨hword, threshold_lt_of_tiles hwell (by decide)⟩, last, hgreatest, rfl, rfl⟩

/-- A firmware list of any descriptors has an answer under any configuration without a policy, or
with a well-formed one whose forced ranges fit a word. No bound, no difference and no record on
the way faults. If the answer is a map, the map is in normal form, and it connects the least base
that is kept with the greatest end, or zero with the end or the threshold if there is a policy. -/
theorem ofFirmware_normal (descriptors : List Descriptor) (config : MapConfig)
    (hpolicy : ∀ policy, config.lowMemory = some policy → policy.isWellFormed = .ok true ∧
      ∀ hole ∈ policy.forced, hole.stop < 2 ^ 64) :
    ∃ answer, (ofFirmware descriptors config).outcome = .ok answer ∧
      Checked.ofFirmware descriptors config = .ok answer ∧
      (∀ threshold, ((ofFirmware descriptors config).observe threshold).2 = .ok answer) ∧
      ∀ map, answer = .ok map →
        ∃ start stop, Normal map start stop ∧ Spans descriptors config start stop := by
  suffices houtcome : ∃ answer, (ofFirmware descriptors config).outcome = .ok answer ∧
      ∀ map, answer = .ok map →
        ∃ start stop, Normal map start stop ∧ Spans descriptors config start stop by
    obtain ⟨answer, hanswer, hmap⟩ := houtcome
    refine ⟨answer, hanswer, (Checked.ofFirmware_eq descriptors config).trans hanswer, ?_, hmap⟩
    intro threshold
    rw [Traced.observe_of_legible (legible_ofFirmware descriptors config), hanswer]
  rw [ofFirmware_outcome]
  by_cases hempty : entriesOf descriptors config = []
  · refine ⟨.error .empty, if_pos (List.isEmpty_iff.mpr hempty), fun map hmap => ?_⟩
    cases hmap
  obtain ⟨resolved, regions, start, stop, hresolved, happlied, hconnects, htidy, hstop, hspans⟩ :=
    exists_regions hempty hpolicy
  rw [if_neg (mt List.isEmpty_iff.mp hempty), hresolved, Outcome.ok_bind, happlied,
    Outcome.ok_bind]
  unfold answerOf
  split_ifs with husable
  · have hmap : ofRegions regions (observed descriptors) =
        .ok ⟨regions, observed descriptors⟩ := by
      rw [ofRegions, hconnects.touching hstop]
      rfl
    have hne : regions ≠ [] := by
      rintro rfl
      cases husable
    refine ⟨.ok ⟨regions, observed descriptors⟩, ?_, ?_⟩
    · rw [hmap]
      rfl
    · rintro map ⟨⟩
      exact ⟨start, stop, normal_of_connects hconnects htidy hne hstop _, hspans⟩
  · refine ⟨.error .noUsableMemory, rfl, fun map hmap => ?_⟩
    cases hmap

/-- On a PC a list out of order, with an empty descriptor and one that reaches past the largest
word, gives a map from zero to the highest end, although a forced range cuts free RAM in two. -/
theorem ofFirmware_normal_forced_range :
    let descriptors : List Descriptor :=
      [⟨0x10000000, 0, 1⟩, ⟨0xFFFFFFFFFFFFF000, 0x2000, 1⟩, ⟨0xE00000, 0x300000, 1⟩,
        ⟨0x100000, 0xE00000, 1⟩]
    ∃ map, (ofFirmware descriptors .pc).outcome = .ok (.ok map) ∧ map.size = 8 ∧
      Normal map 0 0x1100000 := by
  intro descriptors
  have hpolicy : ∀ policy, MapConfig.pc.lowMemory = some policy →
      policy.isWellFormed = .ok true ∧ ∀ hole ∈ policy.forced, hole.stop < 2 ^ 64 := by
    rintro policy ⟨⟩
    exact ⟨LowMemoryPolicy.isWellFormed_pc, by decide⟩
  have hrun : ((ofFirmware descriptors .pc).andThen fun map => do
      let span ← map.span
      return (map.size, span)).outcome = .ok (some (8, 0, 0x1100000)) := by
    decide +kernel
  obtain ⟨map, hmap, hrun⟩ := Traced.of_andThen hrun
  simp only [Traced.outcome_bind, Traced.outcome_liftM, Traced.outcome_pure, Outcome.bind_eq_ok,
    Except.ok.injEq, Prod.mk.injEq] at hrun
  obtain ⟨span, hspan, hsize, rfl⟩ := hrun
  obtain ⟨answer, hanswer, -, -, hnormal⟩ := ofFirmware_normal descriptors .pc hpolicy
  rw [hmap, Except.ok.injEq] at hanswer
  obtain ⟨start, stop, hnormal, -⟩ := hnormal map hanswer.symm
  have hsame := hnormal.span
  rw [hspan, Except.ok.injEq, Prod.mk.injEq] at hsame
  obtain ⟨rfl, rfl⟩ := hsame
  exact ⟨map, hmap, hsize, hnormal⟩

end BootMemory.MemoryMap
