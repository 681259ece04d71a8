import BootMemory.Proofs.Heap.Tiling

/-!
# Serving and taking back

What the operations of a heap do to a tiled arena. `Heap.BlockEnds` lists the ways in which a
request for a block can end, and later proofs go through them case by case. A request faults only
if the strategy faults when it is asked for units. Otherwise it is refused, or served with a new
live block of exactly the units that it needs; either way every other live block stays as it was.
-/

set_option autoImplicit false

namespace BootMemory.Heap

open BootMemory.Span

variable {γ β : Type} [ArenaRegion γ] [GivenUnits γ] {heap other : Heap γ} {free live : List Span}

/-- The address of the payload of a block in an arena that starts at `base`. -/
def payloadAt (base block : Nat) : Nat := base + (block + 1) * unitBytes

/-- The block that an answer serves, as a span. -/
def servedSpan (units : Nat) : Except HeapError Nat → List Span
  | .ok block => [(block, units)]
  | .error _ => []

/-- Every block has a unit at least, for its header. -/
theorem unitsFor_pos (bytes : Nat) : 0 < unitsFor bytes := Nat.succ_pos _

/-- A block has at least one unit behind its header for every sixteen bytes. -/
theorem lt_unitsFor (bytes : Nat) : (bytes + 15) / 16 < unitsFor bytes := Nat.lt_succ_self _

/-- A payload within the arena has an address. -/
theorem Tiled.payload_eq (h : heap.Tiled free live) {block bytes : Nat} (hbytes : 0 < bytes)
    (hm : (block, unitsFor bytes) ∈ live) :
    heap.payload block = .ok (payloadAt (ArenaRegion.base heap.growth) block) := by
  have hle := h.live_le hm
  have hbound := h.freeBlocks.bounded
  have hunits : 1 < unitsFor bytes := by
    have := lt_unitsFor bytes
    omega
  unfold payload
  rw [Word.add_eq_ok (by simp only at hle; omega), Outcome.ok_bind,
    Word.mul_eq_ok (by unfold unitBytes; simp only at hle; omega)]
  rfl

omit [GivenUnits γ] in
/-- The unit of the arena behind which a payload would start at this address. -/
theorem blockOf?_payloadAt {block : Nat} (h : block < heap.arenaUnits) :
    heap.blockOf? (payloadAt (ArenaRegion.base heap.growth) block) = some block := by
  have hoffset : payloadAt (ArenaRegion.base heap.growth) block - ArenaRegion.base heap.growth =
      (block + 1) * unitBytes := Nat.add_sub_cancel_left _ _
  unfold blockOf?
  simp only [hoffset]
  rw [if_neg, Nat.mul_div_cancel _ (by decide), Nat.add_sub_cancel, if_pos h]
  unfold payloadAt unitBytes
  omega

/-- The block of the address of its payload. -/
theorem Tiled.blockOf?_eq (h : heap.Tiled free live) {span : Span} (hm : span ∈ live) :
    heap.blockOf? (payloadAt (ArenaRegion.base heap.growth) span.1) = some span.1 := by
  have hle := h.live_le hm
  have hpos := (h.headers span hm).1
  exact blockOf?_payloadAt (by omega)

omit [GivenUnits γ] in
/-- The unit at the address of a payload is the one behind the header. -/
theorem unitAt_payloadAt (heap : Heap γ) (block : Nat) :
    heap.unitAt (payloadAt (ArenaRegion.base heap.growth) block) = block + 1 := by
  unfold unitAt payloadAt
  rw [Nat.add_sub_cancel_left, Nat.mul_div_cancel _ (by decide)]

/-- What a request for bytes does, if it does not fault: the answer, as a block. -/
structure Serves (heap : Heap γ) (live : List Span) (bytes : Nat) (other : Heap γ)
    (answer : Except HeapError Nat) : Prop where
  tiled : ∃ free, other.Tiled free (servedSpan (unitsFor bytes) answer ++ live)
  keeps : Keeps live heap other
  base : ArenaRegion.base other.growth = ArenaRegion.base heap.growth
  /-- Nothing is served for nothing. -/
  pos : ∀ block, answer = .ok block → 0 < bytes

/-- A refusal leaves everything as it was. -/
theorem Serves.refused (h : heap.Tiled free live) (bytes : Nat) (cause : HeapError) :
    Serves heap live bytes heap (.error cause) :=
  ⟨⟨free, h⟩, Keeps.refl live heap, rfl, fun _ he => nomatch he⟩

/-- Giving back a live block by its address makes it free. -/
theorem Tiled.free_payload {span : Span} (h : heap.Tiled free (span :: live)) :
    ∃ other, Heap.free (payloadAt (ArenaRegion.base heap.growth) span.1) heap = pure other ∧
      other.Tiled (Span.insert span free) live ∧ Keeps live heap other ∧
      other.growth = heap.growth := by
  obtain ⟨other, hrelease, hrest⟩ := h.release
  refine ⟨other, ?_, hrest⟩
  rw [Heap.free, h.blockOf?_eq List.mem_cons_self]
  exact hrelease

variable [ArenaGrowth γ β] [LawfulGrowth γ β]

/-- The ways in which a request for a block of `units` ends. Units are asked of the strategy only if
no free block is large enough, and what it adds is searched like the rest of the arena. -/
inductive BlockEnds (heap : Heap γ) (free live : List Span) (units : Nat) (pages : β) :
    Except Fault (Except HeapError Nat × Heap γ × β) → Prop where
  | fits {other : Heap γ} {block : Nat} {lower : List Span} {span : Span} {upper : List Span}
      (first : nextFit heap.cursor units free = some span)
      (taken : Taken heap free units other block lower span upper) :
      BlockEnds heap free live units pages (.ok (.ok block, other, pages))
  | faults {fault : Fault} (small : ∀ span ∈ free, span.2 < units)
      (request : (requestUnits units heap.growth pages).outcome = .error fault) :
      BlockEnds heap free live units pages (.error fault)
  | refused {answer : Except GrowthError Nat} {growth : γ} {pages' : β}
      (small : ∀ span ∈ free, span.2 < units)
      (request : (requestUnits units heap.growth pages).outcome = .ok (answer, growth, pages'))
      (nothing : GrowthError.added answer = 0) :
      BlockEnds heap free live units pages
        (.ok (.error .arenaExhausted, { heap with growth }, pages'))
  | short {added : Nat} {grown : Heap γ} {pages' : β} (small : ∀ span ∈ free, span.2 < units)
      (request : (requestUnits units heap.growth pages).outcome =
        .ok (.ok added, grown.growth, pages'))
      (tiled : grown.Tiled (Span.insert (heap.arenaUnits, added) free) live)
      (keeps : Keeps live heap grown) (less : added < units) :
      BlockEnds heap free live units pages (.ok (.error .arenaExhausted, grown, pages'))
  | grows {added : Nat} {grown other : Heap γ} {pages' : β} {block : Nat} {lower : List Span}
      {span : Span} {upper : List Span} (small : ∀ span ∈ free, span.2 < units)
      (request : (requestUnits units heap.growth pages).outcome =
        .ok (.ok added, grown.growth, pages'))
      (tiled : grown.Tiled (Span.insert (heap.arenaUnits, added) free) live)
      (keeps : Keeps live heap grown)
      (taken : Taken grown (Span.insert (heap.arenaUnits, added) free) units other block lower span
        upper) :
      BlockEnds heap free live units pages (.ok (.ok block, other, pages'))

/-- A request for a block ends in one of these ways. -/
theorem Tiled.allocateBlock_ends (h : heap.Tiled free live) {bytes : Nat} (hbytes : 0 < bytes)
    (pages : β) : BlockEnds heap free live (unitsFor bytes) pages
      (allocateBlock bytes heap pages).outcome := by
  have hunits := unitsFor_pos bytes
  unfold Heap.allocateBlock
  rw [if_neg (Nat.ne_of_gt hbytes)]
  rcases take_eq h.freeBlocks hunits with
    ⟨hnone, small⟩ | ⟨other, block, lower, span, upper, hsome, taken, first⟩
  · rcases h.grow_cases (unitsFor bytes) pages with ⟨fault, hgrow, request⟩ |
      ⟨answer, growth, pages', request, nothing, hgrow⟩ |
      ⟨added, grown, pages', request, hgrow, tiled, keeps⟩
    · simpa [hnone, hgrow] using BlockEnds.faults small request
    · simpa [hnone, hgrow] using BlockEnds.refused small request nothing
    · rcases take_eq tiled.freeBlocks hunits with
        ⟨hagain, small'⟩ | ⟨other, block, lower, span, upper, hsome, taken, -⟩
      · obtain ⟨span, hm, hle⟩ := exists_le_insert (heap.arenaUnits, added) free
        have less : added < unitsFor bytes := Nat.lt_of_le_of_lt hle (small' span hm)
        simpa [hnone, hgrow, hagain] using BlockEnds.short small request tiled keeps less
      · simpa [hnone, hgrow, hsome] using BlockEnds.grows small request tiled keeps taken
  · simpa [hsome] using BlockEnds.fits first taken

/-- A request for a block faults only as the strategy does. -/
theorem Tiled.allocateBlock (h : heap.Tiled free live) (bytes : Nat) (pages : β) :
    (∃ fault, (allocateBlock bytes heap pages).outcome = .error fault ∧
        (requestUnits (unitsFor bytes) heap.growth pages).outcome = .error fault) ∨
      ∃ answer other pages', (Heap.allocateBlock bytes heap pages).outcome =
          .ok (answer, other, pages') ∧
        Serves heap live bytes other answer := by
  rcases Nat.eq_zero_or_pos bytes with rfl | hbytes
  · exact .inr ⟨_, heap, pages, rfl, Serves.refused h 0 _⟩
  have hunits := unitsFor_pos bytes
  have hends := h.allocateBlock_ends hbytes pages
  generalize (Heap.allocateBlock bytes heap pages).outcome = outcome at hends ⊢
  cases hends with
  | fits first taken =>
    obtain ⟨htiled, hkeeps⟩ := h.taken hunits taken
    exact .inr ⟨_, _, _, rfl, ⟨_, htiled⟩, hkeeps, by rw [taken.growth_eq], fun _ _ => hbytes⟩
  | faults small request => exact .inl ⟨_, rfl, request⟩
  | refused small request nothing =>
    have hext := requestUnits_ok h.sound request
    exact .inr ⟨_, _, _, rfl, ⟨_, h.unchanged hext nothing⟩, Keeps.refl live heap, hext.base, nofun⟩
  | short small request tiled keeps less =>
    have hext := requestUnits_ok h.sound request
    exact .inr ⟨_, _, _, rfl, ⟨_, tiled⟩, keeps, hext.base, nofun⟩
  | grows small request tiled keeps taken =>
    have hext := requestUnits_ok h.sound request
    obtain ⟨htiled, hkeeps⟩ := tiled.taken hunits taken
    exact .inr ⟨_, _, _, rfl, ⟨_, htiled⟩, keeps.trans hkeeps,
      (by rw [taken.growth_eq, hext.base]), fun _ _ => hbytes⟩

/-- What a request for bytes comes to: a fault of the strategy, or an answer with the address
of a payload. -/
def Answers (heap : Heap γ) (live : List Span) (bytes : Nat) (pages : β)
    (request : Traced (Except HeapError Nat × Heap γ × β)) : Prop :=
  (∃ fault, request.outcome = .error fault ∧
      (requestUnits (unitsFor bytes) heap.growth pages).outcome = .error fault) ∨
    ∃ answer other pages', request.outcome =
        .ok (answer.map (payloadAt (ArenaRegion.base heap.growth)), other, pages') ∧
      Serves heap live bytes other answer

/-- A request for bytes is answered with the address of a payload, or faults only as the strategy
does. -/
theorem Tiled.allocate (h : heap.Tiled free live) (bytes : Nat) (pages : β) :
    Answers heap live bytes pages (allocate bytes heap pages) := by
  unfold Heap.allocate
  rcases h.allocateBlock bytes pages with
    ⟨fault, hfault, hcause⟩ | ⟨answer, other, pages', houtcome, hserves⟩
  · left
    exact ⟨fault, by simp [hfault], hcause⟩
  · right
    refine ⟨answer, other, pages', ?_, hserves⟩
    cases answer with
    | error cause => simp [houtcome]
    | ok block =>
      obtain ⟨free', htiled⟩ := hserves.tiled
      have hpayload := htiled.payload_eq (hserves.pos block rfl) List.mem_cons_self
      simp [houtcome, hpayload, hserves.base]

/-- A request for a layout is answered with the address of a payload, or faults only as the
strategy does. -/
theorem Tiled.allocateLayout (h : heap.Tiled free live) (layout : BlockLayout) (pages : β) :
    Answers heap live layout.size pages (allocateLayout layout heap pages) := by
  unfold Heap.allocateLayout
  split_ifs with coarse
  · right
    exact ⟨.error .unsupportedAlignment, heap, pages, rfl, Serves.refused h _ _⟩
  · exact h.allocate layout.size pages

/-- Zeroing the bytes that were served stays within their block. -/
theorem Tiled.allocateZeroed (h : heap.Tiled free live) (bytes : Nat) (pages : β) :
    Answers heap live bytes pages (allocateZeroed bytes heap pages) := by
  unfold Heap.allocateZeroed
  rcases h.allocateBlock bytes pages with
    ⟨fault, hfault, hcause⟩ | ⟨answer, other, pages', houtcome, hserves⟩
  · left
    exact ⟨fault, by simp [hfault], hcause⟩
  · right
    cases answer with
    | error cause => exact ⟨.error cause, other, pages', by simp [houtcome], hserves⟩
    | ok block =>
      obtain ⟨free', htiled⟩ := hserves.tiled
      have hpayload := htiled.payload_eq (hserves.pos block rfl) List.mem_cons_self
      obtain ⟨hzeroed, hkeeps⟩ := htiled.write (fun _ => .filled 0) (lt_unitsFor bytes)
      refine ⟨.ok block, { other with arena := other.arena.fill (block + 1) bytes 0 }, pages', ?_,
        ⟨free', hzeroed⟩, hserves.keeps.trans hkeeps, hserves.base, hserves.pos⟩
      simp [houtcome, hpayload, hserves.base]

end BootMemory.Heap
