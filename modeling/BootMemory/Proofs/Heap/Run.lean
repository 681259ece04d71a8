import BootMemory.Proofs.Heap.Serve

/-!
# Runs of a heap

A run starts with an empty arena over any memory and makes calls in any order. It keeps the
blocks that were served and not given back, which the heap itself does not know, and a call
is legal if it only gives back or writes such blocks. `HeapRun.Sound` is what every call
keeps: the free blocks and the live ones tile the arena (`Sound.step`, `Trace.sound`).
-/

set_option autoImplicit false

namespace BootMemory

open Heap BootMemory.Span

/-- A block that was served and not given back: the address of its payload, and how many
bytes were asked for. -/
structure Grant where
  pointer : Nat
  bytes : Nat
  deriving DecidableEq

namespace Grant

/-- The units of the block, header and payload, in an arena that starts at `base`. -/
def span (base : Nat) (grant : Grant) : Span :=
  ((grant.pointer - base) / unitBytes - 1, unitsFor grant.bytes)

/-- Whether an address is that of a byte of the payload. -/
def Holds (grant : Grant) (addr : Nat) : Prop :=
  grant.pointer ≤ addr ∧ addr < grant.pointer + grant.bytes

/-- The address behind a header is the payload of the block that starts there. -/
theorem span_payloadAt (base block bytes : Nat) :
    span base ⟨payloadAt base block, bytes⟩ = (block, unitsFor bytes) := by
  unfold span payloadAt
  rw [Nat.add_sub_cancel_left, Nat.mul_div_cancel _ (by decide), Nat.add_sub_cancel]

end Grant

/-- A call of a heap, or a write of its user to a payload. -/
inductive HeapCall where
  | allocate (bytes : Nat)
  | allocateLayout (layout : BlockLayout)
  | allocateZeroed (bytes : Nat)
  | free (pointer : Nat)
  | store (pointer count : Nat) (source : Nat → HeapUnit)

/-- Whether a call gives back or writes the block at an address. -/
def HeapCall.Touches (pointer : Nat) : HeapCall → Prop
  | .free freed => freed = pointer
  | .store stored _ _ => stored = pointer
  | _ => False

/-- A heap in use: the heap, where its pages come from, and the live blocks. -/
structure HeapRun (γ β : Type) where
  heap : Heap γ
  pages : β
  live : List Grant

namespace HeapRun

variable {γ β : Type}

/-- A new heap over some memory. -/
def start (arena : Arena) (growth : γ) (pages : β) : HeapRun γ β :=
  ⟨.ofArena arena growth, pages, []⟩

/-- The run after a request was answered. -/
def record (live : List Grant) (bytes : Nat) :
    Except HeapError Nat × Heap γ × β → HeapRun γ β
  | (.ok pointer, heap, pages) => ⟨heap, pages, ⟨pointer, bytes⟩ :: live⟩
  | (.error _, heap, pages) => ⟨heap, pages, live⟩

section Step

variable [ArenaRegion γ]

/-- The address of the first unit. -/
def base (run : HeapRun γ β) : Nat := ArenaRegion.base run.heap.growth

/-- The live blocks as spans. -/
def spans (run : HeapRun γ β) : List Span := run.live.map (Grant.span run.base)

/-- Whether an address is that of a byte of some units. -/
def Occupies (run : HeapRun γ β) (first count addr : Nat) : Prop :=
  run.base + first * unitBytes ≤ addr ∧ addr < run.base + (first + count) * unitBytes

/-- Only live blocks may be given back, and only their payloads may be written. -/
def Legal (run : HeapRun γ β) : HeapCall → Prop
  | .free pointer => ∃ grant ∈ run.live, grant.pointer = pointer
  | .store pointer count _ => ∃ grant ∈ run.live, grant.pointer = pointer ∧ count ≤ grant.bytes
  | _ => True

/-- The run after a call. -/
def step [ArenaGrowth γ β] (run : HeapRun γ β) : HeapCall → Traced (HeapRun γ β)
  | .allocate bytes => record run.live bytes <$> run.heap.allocate bytes run.pages
  | .allocateLayout layout =>
    record run.live layout.size <$> run.heap.allocateLayout layout run.pages
  | .allocateZeroed bytes => record run.live bytes <$> run.heap.allocateZeroed bytes run.pages
  | .free pointer => do
    let heap ← run.heap.free pointer
    return { run with heap, live := run.live.eraseP (·.pointer = pointer) }
  | .store pointer count source =>
    return { run with heap := run.heap.writeAt pointer count source }

/-- Legal calls, one after the other, none of which faults. -/
inductive Trace [ArenaGrowth γ β] : HeapRun γ β → List HeapCall → HeapRun γ β → Prop where
  | done (run : HeapRun γ β) : Trace run [] run
  | call {run next last : HeapRun γ β} {call : HeapCall} {calls : List HeapCall}
      (legal : run.Legal call) (hstep : (run.step call).outcome = .ok next)
      (rest : Trace next calls last) : Trace run (call :: calls) last

variable [GivenUnits γ]

/-- The free blocks and the live ones tile the arena, and every live address is that of a
payload. -/
structure Sound (run : HeapRun γ β) (free : List Span) : Prop where
  tiled : run.heap.Tiled free run.spans
  grants : ∀ grant ∈ run.live,
    0 < grant.bytes ∧ grant.pointer = payloadAt run.base (grant.span run.base).1

/-- A heap without an arena is sound, whatever its memory holds. -/
theorem sound_start (arena : Arena) {growth : γ} (pages : β) (hsound : GivenUnits.Sound growth)
    (hgiven : GivenUnits.given growth = 0) : (start arena growth pages).Sound [] := by
  refine ⟨⟨⟨⟨rfl, trivial⟩, ?_, List.Pairwise.nil, ?_, ?_, rfl, Nat.zero_le _⟩, ?_, ?_, hsound,
    hgiven⟩, ?_⟩
  · exact fun _ hm => nomatch hm
  · exact fun _ hm => nomatch hm
  · exact List.mem_cons_self
  · exact fun unit => (if_neg (Nat.not_lt_zero unit)).symm
  · exact fun _ hm => nomatch hm
  · exact fun _ hm => nomatch hm

/-- What a call leaves of a run: it is sound, the memory of the blocks that the call does not
touch is the same, and these blocks are still live. -/
structure Follows (run : HeapRun γ β) (call : HeapCall) (next : HeapRun γ β) : Prop where
  sound : ∃ free, next.Sound free
  base_eq : next.base = run.base
  live : ∀ grant ∈ run.live, ¬ call.Touches grant.pointer → grant ∈ next.live ∧
    ∀ unit, covers unit (grant.span run.base) = true →
      next.heap.arena.get unit = run.heap.arena.get unit

variable {run : HeapRun γ β} {free : List Span}

/-- An answered request leaves a sound run. -/
theorem Sound.record (h : run.Sound free) {call : HeapCall} {bytes : Nat} {other : Heap γ}
    {answer : Except HeapError Nat} (pages : β)
    (hserves : Serves run.heap run.spans bytes other answer) :
    Follows run call (record run.live bytes (answer.map (payloadAt run.base), other, pages)) := by
  obtain ⟨free', htiled⟩ := hserves.tiled
  have hkeeps : ∀ grant ∈ run.live, ∀ unit, covers unit (grant.span run.base) = true →
      other.arena.get unit = run.heap.arena.get unit :=
    fun grant hm => hserves.keeps _ (List.mem_map_of_mem hm)
  have hbase : ArenaRegion.base other.growth = run.base := hserves.base
  cases answer with
  | error cause =>
    refine ⟨⟨free', ?_, ?_⟩, hbase, fun grant hm _ => ⟨hm, hkeeps grant hm⟩⟩
    · show other.Tiled free' (run.live.map (Grant.span (ArenaRegion.base other.growth)))
      rw [hbase]
      exact htiled
    · show ∀ grant ∈ run.live, 0 < grant.bytes ∧ grant.pointer =
        payloadAt (ArenaRegion.base other.growth) (grant.span (ArenaRegion.base other.growth)).1
      rw [hbase]
      exact h.grants
  | ok block =>
    refine ⟨⟨free', ?_, ?_⟩, hbase, fun grant hm _ => ⟨List.mem_cons_of_mem _ hm, hkeeps grant hm⟩⟩
    · show other.Tiled free' ((⟨payloadAt run.base block, bytes⟩ :: run.live).map
        (Grant.span (ArenaRegion.base other.growth)))
      rw [hbase, List.map_cons, Grant.span_payloadAt]
      exact htiled
    · show ∀ grant ∈ (⟨payloadAt run.base block, bytes⟩ :: run.live : List Grant),
        0 < grant.bytes ∧ grant.pointer = payloadAt (ArenaRegion.base other.growth)
          (grant.span (ArenaRegion.base other.growth)).1
      rw [hbase]
      refine List.forall_mem_cons.mpr ⟨⟨hserves.pos block rfl, ?_⟩, h.grants⟩
      rw [Grant.span_payloadAt]

/-- A live block can be put in front of the others. -/
theorem Sound.focus (h : run.Sound free) {lower upper : List Grant} {grant : Grant}
    (hlive : run.live = lower ++ grant :: upper) :
    run.heap.Tiled free (grant.span run.base :: (lower ++ upper).map (Grant.span run.base)) := by
  have hperm : (grant :: (lower ++ upper)).Perm run.live := by
    rw [hlive]
    exact List.perm_middle.symm
  apply h.tiled.perm
  exact hperm.map (Grant.span run.base)

/-- No two live blocks have the same address, because each of them has its header to itself. -/
theorem Sound.pointers_ne (h : run.Sound free) :
    run.live.Pairwise fun a b => a.pointer ≠ b.pointer := by
  have hpairs := (List.pairwise_append.mp h.tiled.tiles.pairwise).2.1
  refine (List.pairwise_map.mp hpairs).imp_of_mem fun {a b} ha hb hnot hpointer => ?_
  have hstart : (a.span run.base).1 = (b.span run.base).1 := by
    unfold Grant.span
    rw [hpointer]
  have hheader : ∀ grant ∈ run.live,
      covers (grant.span run.base).1 (grant.span run.base) = true := by
    intro grant hm
    have := (h.tiled.headers _ (List.mem_map_of_mem hm)).1
    exact covers_iff.mpr (by omega)
  exact hnot _ ⟨hheader a ha, hstart ▸ hheader b hb⟩

/-- What giving back a live block leaves of a run: the block is free, the others are as they were,
and the strategy was not asked. -/
structure GivesBack (run : HeapRun γ β) (free : List Span) (grant : Grant) (next : HeapRun γ β) :
    Prop where
  freed : run.heap.free grant.pointer = pure next.heap
  sound : next.Sound (Span.insert (grant.span run.base) free)
  live : next.live = run.live.erase grant
  keeps : Keeps (next.live.map (Grant.span run.base)) run.heap next.heap
  growth_eq : next.heap.growth = run.heap.growth
  pages_eq : next.pages = run.pages

/-- A live block can be given back. -/
theorem Sound.gives_back [ArenaGrowth γ β] (h : run.Sound free) {grant : Grant}
    (hgrant : grant ∈ run.live) :
    ∃ next, (run.step (.free grant.pointer)).outcome = .ok next ∧
      GivesBack run free grant next := by
  obtain ⟨lower, upper, hlive⟩ := List.append_of_mem hgrant
  have hpointers := h.pointers_ne
  rw [hlive, List.pairwise_append] at hpointers
  have hlower : ∀ other ∈ lower, other.pointer ≠ grant.pointer := fun other hm =>
    hpointers.2.2 other hm grant List.mem_cons_self
  have herase : run.live.eraseP (·.pointer = grant.pointer) = lower ++ upper := by
    rw [hlive, List.eraseP_append_right _ (by simpa using hlower),
      List.eraseP_cons_of_pos (by simp)]
  have herase' : run.live.erase grant = lower ++ upper := by
    rw [hlive, List.erase_append_right _ fun hm => hlower grant hm rfl, List.erase_cons_head]
  obtain ⟨other, hfree, htiled, hkeeps, hgrowth⟩ := (h.focus hlive).free_payload
  have hpointer := (h.grants grant hgrant).2
  have hbase : ArenaRegion.base other.growth = run.base := congrArg ArenaRegion.base hgrowth
  rw [← base, ← hpointer] at hfree
  refine ⟨⟨other, run.pages, lower ++ upper⟩, ?_, hfree, ⟨?_, ?_⟩, herase'.symm, hkeeps, hgrowth,
    rfl⟩
  · simp [step, hfree, herase]
  · show other.Tiled _ ((lower ++ upper).map (Grant.span (ArenaRegion.base other.growth)))
    rw [hbase]
    exact htiled
  · show ∀ grant ∈ lower ++ upper, 0 < grant.bytes ∧ grant.pointer =
      payloadAt (ArenaRegion.base other.growth) (grant.span (ArenaRegion.base other.growth)).1
    rw [hbase, ← herase']
    exact fun other hm => h.grants other (List.mem_of_mem_erase hm)

/-- Giving back a live block succeeds and leaves a sound run. -/
theorem Sound.step_free [ArenaGrowth γ β] (h : run.Sound free) {pointer : Nat}
    (legal : run.Legal (.free pointer)) :
    ∃ next, (run.step (.free pointer)).outcome = .ok next ∧ Follows run (.free pointer) next := by
  obtain ⟨grant, hgrant, rfl⟩ := legal
  obtain ⟨next, hnext, g⟩ := h.gives_back hgrant
  refine ⟨next, hnext, ⟨_, g.sound⟩, congrArg ArenaRegion.base g.growth_eq, ?_⟩
  intro other hm huntouched
  have hrest : other ∈ next.live := by
    rw [g.live]
    apply (List.mem_erase_of_ne _).mpr hm
    rintro rfl
    exact huntouched rfl
  exact ⟨hrest, g.keeps _ (List.mem_map_of_mem hrest)⟩

/-- Writing to a payload leaves a sound run. -/
theorem Sound.step_store [ArenaGrowth γ β] (h : run.Sound free) {pointer count : Nat}
    {source : Nat → HeapUnit} (legal : run.Legal (.store pointer count source)) :
    ∃ next, (run.step (.store pointer count source)).outcome = .ok next ∧
      Follows run (.store pointer count source) next := by
  obtain ⟨grant, hmem, rfl, hcount⟩ := legal
  obtain ⟨lower, upper, hlive⟩ := List.append_of_mem hmem
  have hfit : (count + 15) / 16 < (grant.span run.base).2 :=
    Nat.lt_of_le_of_lt (Nat.div_le_div_right (Nat.add_le_add_right hcount 15))
      (lt_unitsFor grant.bytes)
  obtain ⟨htiled, hkeeps⟩ := (h.focus hlive).write source hfit
  have hunit : run.heap.unitAt grant.pointer = (grant.span run.base).1 + 1 := by
    rw [(h.grants grant hmem).2]
    exact unitAt_payloadAt run.heap _
  have hperm : run.live.Perm (grant :: (lower ++ upper)) := by
    rw [hlive]
    exact List.perm_middle
  refine ⟨_, rfl, ⟨free, ?_, h.grants⟩, rfl, ?_⟩
  · unfold writeAt
    rw [hunit]
    apply htiled.perm
    exact hperm.map (Grant.span run.base)
  · intro other hm huntouched
    refine ⟨hm, ?_⟩
    intro unit hcover
    have hrest : other ∈ lower ++ upper := by
      apply (List.mem_cons.mp (hperm.mem_iff.mp hm)).resolve_left
      rintro rfl
      exact huntouched rfl
    show (run.heap.arena.writeFrom (run.heap.unitAt grant.pointer) count source).get unit = _
    rw [hunit]
    exact hkeeps _ (List.mem_map_of_mem hrest) unit hcover

/-- A request goes through and leaves a sound run, unless the strategy faults. -/
theorem Sound.step_request [ArenaGrowth γ β] (h : run.Sound free) {call : HeapCall} {bytes : Nat}
    {request : Traced (Except HeapError Nat × Heap γ × β)}
    (hanswers : Answers run.heap run.spans bytes run.pages request)
    (hstep : run.step call = HeapRun.record run.live bytes <$> request) :
    (∃ units fault, (run.step call).outcome = .error fault ∧
        (requestUnits units run.heap.growth run.pages).outcome = .error fault) ∨
      ∃ next, (run.step call).outcome = .ok next ∧ Follows run call next := by
  rw [hstep, Traced.outcome_map]
  rcases hanswers with ⟨fault, hfault, hcause⟩ | ⟨answer, other, pages, houtcome, hserves⟩
  · left
    rw [hfault]
    exact ⟨_, fault, rfl, hcause⟩
  · right
    rw [houtcome]
    exact ⟨_, rfl, h.record pages hserves⟩

/-- A legal call goes through and leaves a sound run, unless the strategy faults when it is
asked for units. -/
theorem Sound.step [ArenaGrowth γ β] [LawfulGrowth γ β] (h : run.Sound free) {call : HeapCall}
    (legal : run.Legal call) :
    (∃ units fault, (run.step call).outcome = .error fault ∧
        (requestUnits units run.heap.growth run.pages).outcome = .error fault) ∨
      ∃ next, (run.step call).outcome = .ok next ∧ Follows run call next := by
  cases call with
  | allocate bytes => exact h.step_request (h.tiled.allocate bytes run.pages) rfl
  | allocateLayout layout => exact h.step_request (h.tiled.allocateLayout layout run.pages) rfl
  | allocateZeroed bytes => exact h.step_request (h.tiled.allocateZeroed bytes run.pages) rfl
  | free pointer => exact .inr (h.step_free legal)
  | store pointer count source => exact .inr (h.step_store legal)

/-- A legal call that has gone through leaves a sound run. -/
theorem Sound.follows [ArenaGrowth γ β] [LawfulGrowth γ β] (h : run.Sound free) {call : HeapCall}
    (legal : run.Legal call) {next : HeapRun γ β} (hstep : (run.step call).outcome = .ok next) :
    Follows run call next := by
  rcases h.step legal with ⟨units, fault, hfault, -⟩ | ⟨other, hother, hfollows⟩
  · rw [hstep] at hfault
    cases hfault
  · rw [hstep] at hother
    cases hother
    exact hfollows

end Step

end HeapRun

end BootMemory
