import BootMemory.Proofs.Frames.Start
import Mathlib.Data.Finset.Max

/-!
# The frame allocator refines a set

`FrameSet` is all that a user of a frame allocator has to know: a fixed set of tracked frames
and the subset of those that are used. A run of the allocator and a run of the set give the
same answers, as long as nobody frees a tracked frame that is not used.
-/

set_option autoImplicit false

namespace BootMemory

/-- A call of a frame allocator. -/
inductive FrameCall where
  | allocate
  | free (frame : Frame)
  | reserve (start stop : Nat)
  | isUsed (frame : Frame)

/-- What a call answers. -/
inductive FrameAnswer where
  | frame (answer : Option Frame)
  | done
  | count (fresh : Nat)
  | flag (used : Bool)
  deriving DecidableEq

/-- A fixed set of tracked frames, and the set of those that are used. -/
structure FrameSet where
  tracked : Finset Nat
  used : Finset Nat

namespace FrameSet

/-- The tracked frames that share a byte with some addresses. -/
def touched (set : FrameSet) (start stop : Nat) : Finset Nat :=
  set.tracked.filter (SharesByte start stop)

/-- The answer to a call, and the set after it. -/
def step (set : FrameSet) : FrameCall → FrameAnswer × FrameSet
  | .allocate =>
    if free : (set.tracked \ set.used).Nonempty then
      let least := (set.tracked \ set.used).min' free
      (.frame (some (Frame.ofIndex least)), { set with used := insert least set.used })
    else (.frame none, set)
  | .free frame =>
    if frame.index ∈ set.tracked then (.done, { set with used := set.used.erase frame.index })
    else (.done, set)
  | .reserve start stop =>
    (.count (set.touched start stop \ set.used).card,
      { set with used := set.used ∪ set.touched start stop })
  | .isUsed frame => (.flag (frame.index ∉ set.tracked ∨ frame.index ∈ set.used), set)

/-- Whether a call keeps to the rules: only used or untracked frames are freed. -/
def Legal (set : FrameSet) : FrameCall → Prop
  | .free frame => frame.index ∈ set.tracked → frame.index ∈ set.used
  | _ => True

/-- Whether all calls of a run keep to the rules. -/
def LegalRun (set : FrameSet) : List FrameCall → Prop
  | [] => True
  | call :: calls => set.Legal call ∧ LegalRun (set.step call).2 calls

/-- The answers to calls, and the set after them. -/
def run (set : FrameSet) : List FrameCall → List FrameAnswer × FrameSet
  | [] => ([], set)
  | call :: calls =>
    let (answer, set) := set.step call
    let (answers, set) := run set calls
    (answer :: answers, set)

/-- No call changes which frames are tracked. -/
theorem tracked_step (set : FrameSet) (call : FrameCall) :
    (set.step call).2.tracked = set.tracked := by
  cases call <;> simp only [step] <;> split_ifs <;> rfl

/-- No run of calls changes which frames are tracked. -/
theorem tracked_run (set : FrameSet) (calls : List FrameCall) :
    (set.run calls).2.tracked = set.tracked := by
  induction calls generalizing set with
  | nil => rfl
  | cons call calls ih => exact (ih _).trans (tracked_step set call)

/-- A used frame stays used by a call that does not free it. -/
theorem mem_used_step {set : FrameSet} {call : FrameCall} {number : Nat}
    (hused : number ∈ set.used) (hkept : ∀ frame, call = .free frame → frame.index ≠ number) :
    number ∈ (set.step call).2.used := by
  cases call with
  | allocate =>
    simp only [step]
    split_ifs
    · exact Finset.mem_insert_of_mem hused
    · exact hused
  | free frame =>
    simp only [step]
    split_ifs
    · exact Finset.mem_erase.mpr ⟨(hkept frame rfl).symm, hused⟩
    · exact hused
  | reserve start stop => exact Finset.mem_union_left _ hused
  | isUsed frame => exact hused

/-- A used frame stays used as long as nobody frees it. -/
theorem mem_used_run {set : FrameSet} {calls : List FrameCall} {number : Nat}
    (hused : number ∈ set.used) (hkept : ∀ frame, .free frame ∈ calls → frame.index ≠ number) :
    number ∈ (set.run calls).2.used := by
  induction calls generalizing set with
  | nil => exact hused
  | cons call calls ih =>
    refine ih (mem_used_step hused ?_) fun frame hfree => hkept frame (List.mem_cons_of_mem _ hfree)
    rintro frame rfl
    exact hkept frame List.mem_cons_self

end FrameSet

namespace FrameAllocator

/-- The answer to a call, and the allocator after it. -/
def step (allocator : FrameAllocator) : FrameCall → Traced (FrameAnswer × FrameAllocator)
  | .allocate =>
    match allocator.allocate with
    | some (frame, allocator) => return (.frame (some frame), allocator)
    | none => return (.frame none, allocator)
  | .free frame => do
    let allocator ← allocator.free frame
    return (.done, allocator)
  | .reserve start stop =>
    let (allocator, fresh) := allocator.reserveRange start stop
    return (.count fresh, allocator)
  | .isUsed frame => return (.flag (allocator.isUsed frame), allocator)

/-- The answers to calls, and the allocator after them. -/
def run (allocator : FrameAllocator) :
    List FrameCall → Traced (List FrameAnswer × FrameAllocator)
  | [] => return ([], allocator)
  | call :: calls => do
    let (answer, allocator) ← allocator.step call
    let (answers, allocator) ← run allocator calls
    return (answer :: answers, allocator)

/-- An allocator as a set. -/
def view (allocator : FrameAllocator) : FrameSet := ⟨allocator.tracked, allocator.unavailable⟩

variable {allocator other : FrameAllocator}

/-- As a set, an operation changes nothing but the used frames. -/
theorem Becomes.view_eq {unavailable : Finset Nat} (h : Becomes allocator other unavailable) :
    other.view = { allocator.view with used := unavailable } := by
  unfold view
  rw [h.tracked_eq, h.unavailable_eq]

/-- Every legal call goes through, answers what the set answers, and leaves a sound allocator
that is what the set has become. -/
theorem Sound.step_eq (h : allocator.Sound) {call : FrameCall} (legal : allocator.view.Legal call) :
    ∃ next, (allocator.step call).outcome = .ok ((allocator.view.step call).1, next) ∧
      next.Sound ∧ next.view = (allocator.view.step call).2 := by
  cases call with
  | allocate =>
    rcases h.allocate with ⟨hfull, hnone⟩ | ⟨frame, other, hsome, out⟩
    · refine ⟨allocator, ?_, h, ?_⟩
      · simp [FrameAllocator.step, FrameSet.step, view, hnone, hfull]
      · simp [FrameSet.step, view, hfull]
    · have hfree : (allocator.view.tracked \ allocator.view.used).Nonempty := ⟨_, out.free⟩
      have hleast : (allocator.view.tracked \ allocator.view.used).min' hfree = frame.index :=
        Nat.le_antisymm (Finset.min'_le _ _ out.free) (Finset.le_min' _ _ _ out.least)
      have hframe : Frame.ofIndex frame.index = frame := by
        have hlt : frame.index * 4096 < 2 ^ 64 := frame.isLt
        apply PhysPage.ext
        rw [Frame.index_ofIndex, Nat.mod_eq_of_lt (by omega)]
      have hstep : allocator.view.step .allocate =
          (.frame (some frame), { allocator.view with
            used := insert frame.index allocator.unavailable }) := by
        simp only [FrameSet.step, dif_pos hfree, hleast, hframe]
        rfl
      rw [hstep]
      refine ⟨other, ?_, out.becomes.sound, out.becomes.view_eq⟩
      simp [FrameAllocator.step, hsome]
  | free frame =>
    by_cases htracked : frame.index ∈ allocator.tracked
    · obtain ⟨other, houtcome, becomes⟩ := h.free (legal htracked)
      have hstep : allocator.view.step (.free frame) =
          (.done, { allocator.view with used := allocator.unavailable.erase frame.index }) :=
        if_pos htracked
      rw [hstep]
      refine ⟨other, ?_, becomes.sound, becomes.view_eq⟩
      simp [FrameAllocator.step, houtcome]
    · have hstep : allocator.view.step (.free frame) = (.done, allocator.view) := if_neg htracked
      rw [hstep]
      refine ⟨allocator, ?_, h, rfl⟩
      simp [FrameAllocator.step, free_untracked htracked]
  | reserve start stop =>
    obtain ⟨hfresh, becomes⟩ := h.reserveRange start stop
    refine ⟨(allocator.reserveRange start stop).1, ?_, becomes.sound, becomes.view_eq⟩
    simp only [FrameAllocator.step, FrameSet.step, Traced.outcome_pure, hfresh]
    rfl
  | isUsed frame =>
    refine ⟨allocator, ?_, h, rfl⟩
    have hflag : allocator.isUsed frame =
        decide (frame.index ∉ allocator.tracked ∨ frame.index ∈ allocator.unavailable) := by
      rw [Bool.eq_iff_iff, h.isUsed_iff, decide_eq_true_iff]
    simp only [FrameAllocator.step, FrameSet.step, Traced.outcome_pure, hflag]
    rfl

/-- A run of a sound allocator goes through and gives the answers of the set. -/
theorem Sound.run_eq (calls : List FrameCall) : ∀ {allocator : FrameAllocator}, allocator.Sound →
    allocator.view.LegalRun calls → ∃ last,
      (allocator.run calls).outcome = .ok ((allocator.view.run calls).1, last) ∧
        last.Sound ∧ last.view = (allocator.view.run calls).2 := by
  induction calls with
  | nil =>
    intro allocator h _
    exact ⟨allocator, rfl, h, rfl⟩
  | cons call calls ih =>
    rintro allocator h ⟨legal, hrest⟩
    obtain ⟨next, hstep, hsound, hview⟩ := h.step_eq legal
    rw [← hview] at hrest
    obtain ⟨last, hrun, hlast, hlastview⟩ := ih hsound hrest
    refine ⟨last, ?_, hlast, ?_⟩
    · simp only [FrameAllocator.run, FrameSet.run, Traced.outcome_bind, hstep, Outcome.ok_bind,
        hrun, Traced.outcome_pure, ← hview]
    · simp only [FrameSet.run, ← hview]
      exact hlastview

/-- What a run leaves is sound, and is what the set has become. -/
theorem Sound.of_run (h : allocator.Sound) {calls : List FrameCall}
    (legal : allocator.view.LegalRun calls) {answers : List FrameAnswer}
    (hrun : (allocator.run calls).outcome = .ok (answers, other)) :
    other.Sound ∧ other.view = (allocator.view.run calls).2 := by
  obtain ⟨last, hlast, hsound, hview⟩ := h.run_eq calls legal
  rw [hlast] at hrun
  cases hrun
  exact ⟨hsound, hview⟩

/-- A new frame allocator is a set of tracked frames with a subset of used ones, and stays
one: whatever is asked of it, and in whatever order, no call faults and the answers are those
of the set. The lowest frame that is tracked and not used is handed out, and none only when
all are used; a frame that is freed is not used any more; reserved are the tracked frames
that share a byte with the addresses, and counted are those that were not used. -/
theorem run_refines_set {regions : List Region} {observedBytes : Nat} {map : MemoryMap}
    (hmap : MemoryMap.ofRegions regions observedBytes = .ok map) {kernel : KernelImage}
    {reach : Nat} {config : FrameConfig} {allocator : FrameAllocator}
    (hnew : (ofMap map kernel reach config).outcome = .ok (.ok allocator))
    {calls : List FrameCall} (legal : allocator.view.LegalRun calls) :
    allocator.view.used ⊆ allocator.view.tracked ∧ ∃ last,
      (allocator.run calls).outcome = .ok ((allocator.view.run calls).1, last) ∧
        last.view = (allocator.view.run calls).2 ∧ last.view.used ⊆ last.view.tracked := by
  have hsound := (built_of_ofMap (MemoryMap.ordered_of_ofRegions hmap) hnew).sound
  obtain ⟨last, hrun, -, hview⟩ := hsound.run_eq calls legal
  exact ⟨allocator.unavailable_subset, last, hrun, hview, last.unavailable_subset⟩

/-- Sixteen pages of RAM with the kernel in the first one and the bitmap in the second: the
answers to five calls, by the allocator and by the set. -/
theorem run_refines_set_sixteen_pages :
    let map : MemoryMap := ⟨[⟨0x100000, 0x10000, .available⟩], 0x10000⟩
    let kernel : KernelImage := ⟨.ofNat 0x100000, .ofNat 0x101000, by decide⟩
    let calls : List FrameCall := [.allocate, .reserve 0x100000 0x10F001,
      .free (Frame.ofIndex 0x105), .allocate, .isUsed (Frame.ofIndex 0x99)]
    let answers : List FrameAnswer := [.frame (some (Frame.ofIndex 0x102)), .count 13, .done,
      .frame (some (Frame.ofIndex 0x105)), .flag true]
    ∃ allocator last, (ofMap map kernel (2 ^ 32) .standard).outcome = .ok (.ok allocator) ∧
      (allocator.run calls).outcome = .ok (answers, last) ∧
      (allocator.view.run calls).1 = answers := by
  intro map kernel calls answers
  have hrun : ((ofMap map kernel (2 ^ 32) .standard).andThen fun allocator =>
      (·.1) <$> allocator.run calls).outcome = .ok (some answers) := by
    decide +kernel
  obtain ⟨allocator, hnew, hrun⟩ := Traced.of_andThen hrun
  have legal : allocator.view.LegalRun calls := by
    refine ⟨trivial, trivial, ?_, trivial, trivial, trivial⟩
    intro htracked
    apply Finset.mem_union_right
    refine Finset.mem_filter.mpr ⟨?_, by decide⟩
    exact htracked
  obtain ⟨-, last, hlast, -⟩ := run_refines_set
    (show MemoryMap.ofRegions map.regions map.observedBytes = .ok map from rfl) hnew legal
  simp only [Traced.outcome_map, hlast, Outcome.map_ok, Except.ok.injEq] at hrun
  refine ⟨allocator, last, hnew, ?_, hrun⟩
  rw [hlast, hrun]

end FrameAllocator

end BootMemory
