import BootMemory.Proofs.Frames.Start
import BootMemory.Proofs.MemoryMap.OfFirmware

/-!
# Where handed-out frames come from

The path of a frame goes from the firmware's list through the memory map and the stretches of
the allocator to whoever allocates it. Every byte of a frame that is handed out is RAM for
the firmware, or for the platform where it replaces the firmware's list, and nobody else has
the frame: not the kernel image, not the bitmaps, no forced range, and nobody to whom it was
handed out before (`handed_out_is_free_ram`).

The frames that are unavailable while an allocator is used are always of two sorts, those
that are handed out and those that are held back (`FrameRun.Sorted`).
-/

set_option autoImplicit false

namespace BootMemory

open FrameAllocator

/-- An allocator in use: the frames that are handed out, and those that are held back because
they were reserved while they were not handed out. -/
structure FrameRun where
  allocator : FrameAllocator
  out : Finset Nat
  held : Finset Nat

namespace FrameRun

/-- One call of an allocator in use. Only frames that are handed out are freed. -/
inductive Follows : FrameRun → FrameRun → Prop where
  | allocate {run : FrameRun} {frame : Frame} {other : FrameAllocator}
      (h : run.allocator.allocate = some (frame, other)) :
      Follows run ⟨other, insert frame.index run.out, run.held⟩
  | free {run : FrameRun} {frame : Frame} {other : FrameAllocator} (hout : frame.index ∈ run.out)
      (h : (run.allocator.free frame).outcome = .ok other) :
      Follows run ⟨other, run.out.erase frame.index, run.held⟩
  | reserve {run : FrameRun} (start stop : Nat) :
      Follows run ⟨(run.allocator.reserveRange start stop).1, run.out,
        run.held ∪ (run.allocator.tracked.filter (SharesByte start stop) \ run.out)⟩

/-- What an allocator can become in use. -/
inductive Reached (allocator : FrameAllocator) : FrameRun → Prop where
  | start : Reached allocator ⟨allocator, ∅, allocator.unavailable⟩
  | step {run next : FrameRun} (h : Reached allocator run) (follows : Follows run next) :
      Reached allocator next

/-- An unavailable frame is either handed out or held back, and what was unavailable at the
start is held back. -/
structure Sorted (allocator : FrameAllocator) (run : FrameRun) : Prop where
  sound : run.allocator.Sound
  tracked_eq : run.allocator.tracked = allocator.tracked
  unavailable_eq : run.allocator.unavailable = run.out ∪ run.held
  disjoint : Disjoint run.out run.held
  held : allocator.unavailable ⊆ run.held

variable {allocator : FrameAllocator} {run next : FrameRun}

/-- Every call keeps the two sorts apart. -/
theorem Sorted.step (h : Sorted allocator run) (follows : Follows run next) :
    Sorted allocator next := by
  cases follows with
  | @allocate frame other hallocate =>
    rcases h.sound.allocate with ⟨-, hnone⟩ | ⟨frame', other', hsome, out⟩
    · rw [hnone] at hallocate
      exact nomatch hallocate
    · rw [hsome] at hallocate
      cases hallocate
      have hfree := (Finset.mem_sdiff.mp out.free).2
      rw [h.unavailable_eq, Finset.mem_union, not_or] at hfree
      refine ⟨out.becomes.sound, out.becomes.tracked_eq.trans h.tracked_eq, ?_, ?_, h.held⟩
      · rw [out.becomes.unavailable_eq, h.unavailable_eq, Finset.insert_union]
      · exact Finset.disjoint_insert_left.mpr ⟨hfree.2, h.disjoint⟩
  | @free frame other hout hfree =>
    have hmem : frame.index ∈ run.allocator.unavailable := by
      rw [h.unavailable_eq]
      exact Finset.mem_union_left _ hout
    obtain ⟨freed, houtcome, becomes⟩ := h.sound.free hmem
    rw [houtcome] at hfree
    cases hfree
    have hnot : frame.index ∉ run.held := Finset.disjoint_left.mp h.disjoint hout
    refine ⟨becomes.sound, becomes.tracked_eq.trans h.tracked_eq, ?_,
      h.disjoint.mono_left (Finset.erase_subset _ _), h.held⟩
    rw [becomes.unavailable_eq, h.unavailable_eq, Finset.erase_union_distrib,
      Finset.erase_eq_of_notMem hnot]
  | reserve start stop =>
    obtain ⟨-, becomes⟩ := h.sound.reserveRange start stop
    refine ⟨becomes.sound, becomes.tracked_eq.trans h.tracked_eq, ?_, ?_,
      Finset.Subset.trans h.held Finset.subset_union_left⟩
    · rw [becomes.unavailable_eq, h.unavailable_eq]
      ext frame
      simp only [Finset.mem_union, Finset.mem_sdiff]
      tauto
    · exact Finset.disjoint_union_right.mpr ⟨h.disjoint, Finset.disjoint_sdiff⟩

/-- In use, unavailable frames are of the two sorts. -/
theorem Reached.sorted (h : Reached allocator run) (hsound : allocator.Sound) :
    Sorted allocator run := by
  induction h with
  | start =>
    exact ⟨hsound, rfl, (Finset.empty_union _).symm, Finset.disjoint_empty_left _,
      Finset.Subset.refl _⟩
  | step _ follows ih => exact ih.step follows

end FrameRun

/-! ## The bytes of a frame -/

/-- Whether RAM of a firmware type may be handed out: free RAM, and RAM that holds firmware
tables if these are released. -/
def UsableCode (config : FrameConfig) (code : UInt32) : Prop :=
  code = 1 ∨ code = 3 ∧ config.reclaim = .release

/-- Whether a byte may be handed out, as the firmware's list and the platform's policy have
it. -/
structure UsableByte (descriptors : List Descriptor) (config : MapConfig) (frames : FrameConfig)
    (addr : Nat) : Prop where
  /-- At or above the threshold of the policy, or without a policy, some descriptor covers the
  byte, and all descriptors that do have a type that may be handed out. -/
  firmware : (∀ policy, config.lowMemory = some policy → policy.threshold ≤ addr) →
    (∃ descriptor ∈ descriptors, descriptor.Covers addr ∧ UsableCode frames descriptor.code) ∧
      ∀ descriptor ∈ descriptors, descriptor.Covers addr → UsableCode frames descriptor.code
  /-- Below the threshold the table of the policy has the byte with a kind that may be handed
  out. -/
  table : ∀ policy, config.lowMemory = some policy → addr < policy.threshold →
    ∃ entry ∈ policy.table, entry.Covers addr ∧ Usable frames entry.kind
  /-- The byte lies in no forced range. -/
  forced : ∀ policy, config.lowMemory = some policy →
    ∀ hole ∈ policy.forced, ¬ hole.Covers addr

/-- A type whose kind is no stricter than one that may be handed out may be handed out. -/
theorem usableCode_of_precedence {config : FrameConfig} {kind : MemoryKind} {code : UInt32}
    (h : Usable config kind)
    (hle : (MemoryKind.ofCode code.toNat).precedence ≤ kind.precedence) :
    UsableCode config code := by
  have hone : code.toNat = 1 → code = 1 := fun he => UInt32.toNat_inj.mp he
  have hthree : code.toNat = 3 → code = 3 := fun he => UInt32.toNat_inj.mp he
  unfold MemoryKind.ofCode at hle
  unfold UsableCode
  rcases h with rfl | ⟨rfl, hrelease⟩
  · split_ifs at hle with h1 h3
    · exact .inl (hone h1)
    · simp [MemoryKind.precedence] at hle
    · simp [MemoryKind.precedence] at hle
  · split_ifs at hle with h1 h3
    · exact .inl (hone h1)
    · exact .inr ⟨hthree h3, hrelease⟩
    · simp [MemoryKind.precedence] at hle

/-- A byte that is offered as RAM that may be handed out is usable. -/
theorem MemoryMap.Offers.usable {descriptors : List Descriptor} {config : MapConfig}
    {frames : FrameConfig} {addr : Nat} {kind : MemoryKind}
    (h : Offers descriptors config addr kind) (hkind : Usable frames kind) :
    UsableByte descriptors config frames addr := by
  refine ⟨?_, ?_, h.forced⟩
  · intro hthreshold
    obtain ⟨⟨descriptor, hm, hcovers, hsame⟩, hall⟩ := h.firmware hthreshold
    have husable : ∀ descriptor ∈ descriptors, descriptor.Covers addr →
        UsableCode frames descriptor.code :=
      fun descriptor hm hcovers => usableCode_of_precedence hkind (hall descriptor hm hcovers)
    exact ⟨⟨descriptor, hm, hcovers, husable descriptor hm hcovers⟩, husable⟩
  · intro policy hlow hlt
    obtain ⟨entry, hm, hcovers, rfl⟩ := h.table policy hlow hlt
    exact ⟨entry, hm, hcovers, hkind⟩

/-- However an allocator that was made from a firmware list is used: a frame that it hands out
lies below 4 GiB, every byte of it may be handed out, and it shares no byte with the kernel
image and the bitmaps. Nobody has the frame at that time, and it is not held back. -/
theorem handed_out_is_free_ram {descriptors : List Descriptor} {config : MapConfig}
    {map : MemoryMap} {kernel : KernelImage} {reach : Nat} {frames : FrameConfig}
    {allocator : FrameAllocator}
    (hpolicy : ∀ policy, config.lowMemory = some policy → policy.isWellFormed = .ok true)
    (hmap : (MemoryMap.ofFirmware descriptors config).outcome = .ok (.ok map))
    (hnew : (ofMap map kernel reach frames).outcome = .ok (.ok allocator)) {run : FrameRun}
    (hrun : FrameRun.Reached allocator run) {frame : Frame} {other : FrameAllocator}
    (hallocate : run.allocator.allocate = some (frame, other)) :
    (frame.index + 1) * pageBytes ≤ 2 ^ 32 ∧
      (∀ addr, frame.index * pageBytes ≤ addr → addr < (frame.index + 1) * pageBytes →
        UsableByte descriptors config frames addr) ∧
      ¬ SharesByte kernel.start.toNat kernel.stop.toNat frame.index ∧
      ¬ SharesByte allocator.storage.start allocator.storage.stop frame.index ∧
      frame.index ∉ run.out ∧ frame.index ∉ run.held := by
  obtain ⟨⟨observedBytes, hregions⟩, -⟩ := MemoryMap.ofFirmware_ok hmap
  have built := built_of_ofMap (MemoryMap.ordered_of_ofRegions hregions) hnew
  have sorted := hrun.sorted built.sound
  obtain ⟨hframe, htracked, hfree⟩ : frame.index ∈ run.allocator.tracked \ run.allocator.unavailable
      ∧ frame.index ∈ allocator.tracked ∧ frame.index ∉ allocator.unavailable := by
    rcases sorted.sound.allocate with ⟨-, hnone⟩ | ⟨frame', other', hsome, out⟩
    · rw [hnone] at hallocate
      exact nomatch hallocate
    · rw [hsome] at hallocate
      cases hallocate
      obtain ⟨hin, hfree⟩ := Finset.mem_sdiff.mp out.free
      refine ⟨out.free, by rwa [← sorted.tracked_eq], fun hun => hfree ?_⟩
      rw [sorted.unavailable_eq]
      apply Finset.mem_union_right
      exact sorted.held hun
  have hnobody := (Finset.mem_sdiff.mp hframe).2
  rw [sorted.unavailable_eq, Finset.mem_union, not_or] at hnobody
  refine ⟨?_, ?_, fun hshares => hfree (built.kernel _ htracked hshares),
    fun hshares => hfree (built.storage _ htracked hshares), hnobody⟩
  · obtain ⟨region, hm, hin⟩ := mem_unionOf.mp htracked
    have hrange := built.sound.inRange region hm
    have hlt := (FrameRegion.mem_frames.mp hin).2
    rw [show pageBytes = 4096 from rfl]
    omega
  · intro addr hlow hhigh
    obtain ⟨region, hregion, husable, hinregion⟩ :=
      built.usable frame.index (Finset.mem_sdiff.mpr ⟨htracked, hfree⟩)
    have hram : region.kind.isRam = true := by
      rcases husable with hkind | ⟨hkind, -⟩
      · rw [hkind]
        rfl
      · rw [hkind]
        rfl
    have hcovers : region.Covers addr :=
      ⟨Nat.le_trans hinregion.1 hlow, Nat.lt_of_lt_of_le hhigh hinregion.2⟩
    exact (MemoryMap.offers_of_claims hmap hpolicy hram
      ⟨region, hregion, hcovers, rfl⟩).usable husable

/-- On a PC with free RAM below and above one megabyte the second page is handed out once the
first is reserved. -/
theorem handed_out_is_free_ram_second_page :
    let descriptors : List Descriptor := [⟨0x100000, 0x10000, 1⟩, ⟨0, 0x9FC00, 1⟩]
    let kernel : KernelImage := ⟨.ofNat 0x100000, .ofNat 0x101000, by decide⟩
    ∃ (map : MemoryMap) (allocator : FrameAllocator) (frame : Frame) (other : FrameAllocator),
      (MemoryMap.ofFirmware descriptors .pc).outcome = .ok (.ok map) ∧
      (ofMap map kernel (2 ^ 32) .standard).outcome = .ok (.ok allocator) ∧
      (allocator.reserveRange 0 0x2000).1.allocate = some (frame, other) ∧ frame.index = 2 ∧
      UsableByte descriptors .pc .standard 0x2000 := by
  intro descriptors kernel
  have hrun : ((MemoryMap.ofFirmware descriptors .pc).andThen fun map =>
      (ofMap map kernel (2 ^ 32) .standard).andThen fun allocator =>
        pure ((allocator.reserveRange 0 0x2000).1.allocate.map (·.1.index))).outcome =
      .ok (some (some (some 2))) := by
    decide +kernel
  obtain ⟨map, hmap, hrun⟩ := Traced.of_andThen hrun
  obtain ⟨allocator, hnew, hrun⟩ := Traced.of_andThen hrun
  simp only [Traced.outcome_pure, Except.ok.injEq, Option.map_eq_some_iff] at hrun
  obtain ⟨⟨frame, other⟩, hallocate, hindex⟩ := hrun
  have hpolicy : ∀ policy, MapConfig.pc.lowMemory = some policy →
      policy.isWellFormed = .ok true := by
    rintro policy ⟨⟩
    exact LowMemoryPolicy.isWellFormed_pc
  have hreached := FrameRun.Reached.start.step
    (@FrameRun.Follows.reserve ⟨allocator, ∅, allocator.unavailable⟩ 0 0x2000)
  obtain ⟨-, hbytes, -⟩ := handed_out_is_free_ram hpolicy hmap hnew hreached hallocate
  refine ⟨map, allocator, frame, other, hmap, hnew, hallocate, hindex, hbytes 0x2000 ?_ ?_⟩
  · rw [hindex]
    decide
  · rw [hindex]
    decide

end BootMemory
