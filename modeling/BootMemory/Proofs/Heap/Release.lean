import BootMemory.Proofs.Heap.Ring

/-!
# Giving a block back

A walk along the ring from the cursor finds the header behind which a block belongs, from
wherever it starts and within one lap (`insertionPoint_eq`); `settleFrom` is the walk that also says
whether it came to an answer or ran out of steps. The block is then put there and
joined to the free blocks that it touches, so the free blocks are those of `Span.insert`
(`release_eq`). A unit that lies in a free block is found out on the same walk, because there is
no place for it anywhere else on the ring (`insertionPoint_of_covers`). Apart from the header of the
block and headers of free blocks nothing is written.
-/

set_option autoImplicit false

namespace BootMemory.Heap

open BootMemory.Span

variable {γ : Type} {heap : Heap γ} {free : List Span}

/-! ## The place of a block -/

/-- What the walk says at one header: that the block is free already, that it belongs here,
or nothing. -/
def judge (heap : Heap γ) (block : Nat) (node : Span) : Option (Option Nat) :=
  if covers block node then some none
  else if (node.1 < block ∧ block < heap.linkOf node.1) ∨
      (heap.linkOf node.1 ≤ node.1 ∧ (node.1 < block ∨ block < heap.linkOf node.1)) then
    some (some node.1)
  else none

/-- The walk of `insertionFrom`, with the answer that there is no place told apart from steps that
ran out. -/
def settleFrom (heap : Heap γ) (block : Nat) : Nat → Nat → Except Fault (Option (Option Nat))
  | 0, _ => .ok none
  | steps + 1, index => do
    let unit ← heap.node index
    if ← inFreeBlock index unit block then return some none
    else if index < block && block < unit.link then return some (some index)
    else if unit.link ≤ index && (index < block || block < unit.link) then
      return some (some index)
    else settleFrom heap block steps unit.link

/-- The two walks give the same answer if there is one, whatever the ring looks like. -/
theorem insertionFrom_eq (heap : Heap γ) (block steps index : Nat) :
    heap.insertionFrom block steps index = (heap.settleFrom block steps index).map Option.join := by
  induction steps generalizing index with
  | zero => rfl
  | succ steps ih =>
    unfold insertionFrom settleFrom
    cases heap.node index with
    | error fault => rfl
    | ok unit =>
      simp only [Outcome.ok_bind]
      cases inFreeBlock index unit block with
      | error fault => rfl
      | ok inside =>
        simp only [Outcome.ok_bind, ih]
        split_ifs <;> rfl

/-- One step of the walk. -/
theorem settleFrom_succ (h : heap.FreeBlocks free) {block : Nat} {node : Span}
    (hm : node ∈ sentinelSpan :: free) (steps : Nat) :
    heap.settleFrom block (steps + 1) node.1 =
      match heap.judge block node with
      | some answer => .ok (some answer)
      | none => heap.settleFrom block steps (heap.linkOf node.1) := by
  have hcovers : inFreeBlock node.1 ⟨heap.linkOf node.1, node.2⟩ block =
      .ok (covers block node) := by
    unfold inFreeBlock
    rcases List.mem_cons.mp hm with rfl | hfree
    · rw [if_pos rfl]
      congr 1
      rw [eq_comm, ← Bool.not_eq_true, covers_iff]
      simp only
      omega
    · have := h.inside node hfree
      have := h.bounded
      rw [if_neg (h.ne_sentinel hfree), Word.add_eq_ok (by simp only; omega)]
      rfl
  rw [settleFrom, h.node_eq hm, Outcome.ok_bind, hcovers, Outcome.ok_bind]
  unfold judge
  by_cases hcover : covers block node = true
  · simp [hcover]
  · simp only [hcover, Bool.false_eq_true, ↓reduceIte, Bool.and_eq_true, Bool.or_eq_true,
      decide_eq_true_eq]
    by_cases hbetween : node.1 < block ∧ block < heap.linkOf node.1
    · simp [hbetween]
    · simp only [hbetween, ↓reduceIte, false_or]
      split_ifs <;> rfl

/-- The walk gives the first answer among the headers that it comes to. -/
theorem settleFrom_eq (h : heap.FreeBlocks free) {block stop : Nat} {answer : Option Nat}
    (ahead : List Span) (steps : Nat) (hl : heap.Leads stop ahead)
    (hm : ∀ node ∈ ahead, node ∈ sentinelSpan :: free) (hsteps : ahead.length ≤ steps)
    (hanswer : ahead.findSome? (heap.judge block) = some answer) :
    heap.settleFrom block steps (entry ahead stop) = .ok (some answer) := by
  induction ahead generalizing steps with
  | nil => simp at hanswer
  | cons node rest ih =>
    obtain ⟨hnode, hrest⟩ := List.forall_mem_cons.mp hm
    obtain ⟨k, rfl⟩ : ∃ k, steps = k + 1 := ⟨steps - 1, by simp at hsteps; omega⟩
    show heap.settleFrom block (k + 1) node.1 = _
    rw [settleFrom_succ h hnode]
    cases hjudge : heap.judge block node with
    | some here =>
      rw [List.findSome?_cons, hjudge] at hanswer
      cases hanswer
      rfl
    | none =>
      rw [List.findSome?_cons, hjudge] at hanswer
      simp only
      rw [hl.1]
      exact ih k hl.2 hrest (by simpa using hsteps) hanswer

/-- From every header of the ring the walk comes to this answer, in no more steps than one for each
unit of the arena and one for the sentinel. -/
def Settles (heap : Heap γ) (free : List Span) (block : Nat) (answer : Option Nat) : Prop :=
  ∀ start ∈ sentinelSpan :: free, ∀ steps, heap.arenaUnits + 1 ≤ steps →
    heap.settleFrom block steps start.1 = .ok (some answer)

/-- The walk is given steps enough to come to its answer from every header of the ring. -/
theorem Settles.insertionFrom_eq {block : Nat} {answer : Option Nat}
    (s : heap.Settles free block answer) {start : Span} (hm : start ∈ sentinelSpan :: free) :
    heap.insertionFrom block (heap.arenaUnits + 1) start.1 = .ok answer := by
  rw [Heap.insertionFrom_eq, s start hm _ le_rfl]
  rfl

/-- The walk comes to its answer from the cursor. -/
theorem Settles.insertionPoint_eq {block : Nat} {answer : Option Nat}
    (s : heap.Settles free block answer) (h : heap.FreeBlocks free) :
    heap.insertionPoint block = .ok answer := by
  obtain ⟨start, hstart, hcursor⟩ := h.exists_cursor
  rw [insertionPoint, hcursor]
  exact s.insertionFrom_eq hstart

/-- If only one element of a list has an answer, it is the first. -/
theorem findSome?_eq_of_unique {α β : Type} {f : α → Option β} {l : List α} {x : α} {b : β}
    (hm : x ∈ l) (hx : f x = some b) (hother : ∀ y ∈ l, y ≠ x → f y = none) :
    l.findSome? f = some b := by
  induction l with
  | nil => simp at hm
  | cons y rest ih =>
    obtain ⟨hy, hrest⟩ := List.forall_mem_cons.mp hother
    rw [List.findSome?_cons]
    by_cases hyx : y = x
    · rw [hyx, hx]
    · rw [hy hyx]
      exact ih ((List.mem_cons.mp hm).resolve_left (Ne.symm hyx)) hrest

/-- Spans that lie apart and do not cover a unit are split by it. -/
theorem exists_lower_upper {block : Nat} {spans : List Span} (hp : spans.Pairwise Apart)
    (hout : ∀ span ∈ spans, covers block span = false) :
    ∃ lower upper, spans = lower ++ upper ∧ (∀ span ∈ lower, span.1 + span.2 ≤ block) ∧
      ∀ span ∈ upper, block < span.1 := by
  induction spans with
  | nil => exact ⟨[], [], rfl, by simp, by simp⟩
  | cons span rest ih =>
    obtain ⟨hspan, hrest⟩ := List.pairwise_cons.mp hp
    obtain ⟨hspanout, hrestout⟩ := List.forall_mem_cons.mp hout
    rw [← Bool.not_eq_true, covers_iff] at hspanout
    by_cases hbelow : block < span.1
    · refine ⟨[], span :: rest, rfl, by simp, ?_⟩
      intro other hm
      rcases List.mem_cons.mp hm with rfl | hm
      · exact hbelow
      · have := hspan other hm
        unfold Apart at this
        omega
    · obtain ⟨lower, upper, rfl, hlower, hupper⟩ := ih hrest hrestout
      refine ⟨span :: lower, upper, rfl, ?_, hupper⟩
      intro other hm
      rcases List.mem_cons.mp hm with rfl | hm
      · omega
      · exact hlower other hm

/-- The place of a block that is not free: the free blocks below it and above it, and the
header in front of it, which is the last of those below. -/
structure Place (free : List Span) (block : Nat) (front : List Span) (before : Span)
    (lower upper : List Span) : Prop where
  split : free = lower ++ upper
  last : sentinelSpan :: lower = front ++ [before]
  below : ∀ span ∈ lower, span.1 + span.2 ≤ block
  above : ∀ span ∈ upper, block < span.1

namespace Place

variable {block : Nat} {front : List Span} {before : Span} {lower upper : List Span}

/-- The ring goes through the header in front of the place to the free blocks above it. -/
theorem ring_eq (p : Place free block front before lower upper) :
    sentinelSpan :: free = front ++ before :: upper := by
  rw [p.split, ← List.cons_append, p.last, List.append_assoc]
  rfl

/-- The header in front of the place is the sentinel or a free block below it. -/
theorem mem_before (p : Place free block front before lower upper) :
    before ∈ sentinelSpan :: lower := by
  rw [p.last]
  simp

/-- The header in front of the place is on the ring. -/
theorem before_mem_ring (p : Place free block front before lower upper) :
    before ∈ sentinelSpan :: free := by
  rw [p.ring_eq]
  simp

/-- The header in front of the place leads to the first free block above it. -/
theorem linkOf_before (p : Place free block front before lower upper) (h : heap.FreeBlocks free) :
    heap.linkOf before.1 = entry upper sentinel := h.linkOf_eq front before upper p.ring_eq

/-- The block lies below the header that follows its place. -/
theorem lt_entry (p : Place free block front before lower upper) (hb : block < sentinel) :
    block < entry upper sentinel := by
  cases upper with
  | nil => exact hb
  | cons first rest => exact p.above first List.mem_cons_self

/-- At its place the walk ends. -/
theorem judge_before (p : Place free block front before lower upper) (h : heap.FreeBlocks free)
    (hb : block < sentinel) : heap.judge block before = some (some before.1) := by
  have hnext := p.lt_entry hb
  have hlink := p.linkOf_before h
  rw [← hlink] at hnext
  have hcover : ¬ covers block before = true := by
    rw [covers_iff]
    rcases List.mem_cons.mp p.mem_before with rfl | hm
    · simp only
      omega
    · have := p.below before hm
      omega
  unfold judge
  rw [if_neg hcover, if_pos]
  rcases List.mem_cons.mp p.mem_before with hs | hm
  · right
    have hstart : before.1 = sentinel := by rw [hs]
    refine ⟨?_, .inr hnext⟩
    rw [hlink, hstart]
    cases upper with
    | nil => exact Nat.le_refl _
    | cons first rest =>
      apply Nat.le_of_lt
      apply h.lt_sentinel
      rw [p.split]
      simp
  · left
    have := p.below before hm
    have hfree : before ∈ free := by
      rw [p.split]
      exact List.mem_append_left _ hm
    have := h.inside before hfree
    exact ⟨by omega, hnext⟩

/-- A header in front of the place leads to a free block below the place. -/
theorem linkOf_front (p : Place free block front before lower upper) (h : heap.FreeBlocks free)
    {node : Span} (hm : node ∈ front) : heap.linkOf node.1 ≤ block := by
  obtain ⟨first, rest, rfl⟩ := List.append_of_mem hm
  have hring : sentinelSpan :: free = first ++ node :: (rest ++ before :: upper) := by
    rw [p.ring_eq, List.append_assoc]
    rfl
  have hlower : before ∈ lower := by
    have hlast := p.last
    rw [List.append_assoc, List.cons_append] at hlast
    cases first with
    | nil =>
      rw [(List.cons.inj hlast).2]
      exact List.mem_append_right rest (List.mem_singleton_self before)
    | cons _ rest' =>
      rw [(List.cons.inj hlast).2]
      simp
  have := p.below before hlower
  have := h.linkOf_le hring (List.mem_append_right rest List.mem_cons_self)
  omega

/-- At every other header the walk goes on. -/
theorem judge_other (p : Place free block front before lower upper) (h : heap.FreeBlocks free)
    (hb : block < sentinel) (hout : ∀ span ∈ free, covers block span = false) {node : Span}
    (hm : node ∈ sentinelSpan :: free) (hne : node ≠ before) : heap.judge block node = none := by
  have hring := hm
  rw [p.ring_eq, List.mem_append, List.mem_cons] at hring
  unfold judge
  rcases hring with hfront | hhere | hupper
  · have hlink := p.linkOf_front h hfront
    rcases List.mem_cons.mp hm with rfl | hfree
    · rw [if_neg (by rw [covers_iff]; simp only; omega), if_neg (by simp only at *; omega)]
    · have := h.lt_linkOf hfree
      rw [if_neg (by simp [hout node hfree]), if_neg (by omega)]
  · exact absurd hhere hne
  · have hfree : node ∈ free := by
      rw [p.split]
      exact List.mem_append_right _ hupper
    have := h.lt_linkOf hfree
    have := p.above node hupper
    rw [if_neg (by simp [hout node hfree]), if_neg (by omega)]

/-- No header of the ring is at the block. -/
theorem ne_block (p : Place free block front before lower upper) (h : heap.FreeBlocks free)
    (hb : block < sentinel) {span : Span} (hm : span ∈ sentinelSpan :: free) :
    span.1 ≠ block := by
  rcases List.mem_cons.mp hm with rfl | hm
  · exact Nat.ne_of_gt hb
  · have hpos := (h.inside span hm).1
    rw [p.split, List.mem_append] at hm
    rcases hm with hm | hm
    · have := p.below span hm
      omega
    · have := p.above span hm
      omega

/-- The ring after the block was put at its place. -/
theorem ring_insert (p : Place free block front before lower upper) (h : heap.FreeBlocks free)
    (hb : block < sentinel) (size : Nat) :
    sentinelSpan :: Span.insert (block, size) free =
      front ++ join before (join (block, size) upper) := by
  cases front with
  | nil =>
    obtain ⟨hsentinel, hlower⟩ := List.cons.inj p.last
    have hjoin : ∀ spans, (∃ m rest, spans = (block, m) :: rest) →
        join sentinelSpan spans = sentinelSpan :: spans := by
      rintro spans ⟨m, rest, rfl⟩
      rw [join, if_neg (by simp only; omega)]
    rw [p.split, hlower, ← hsentinel, List.nil_append, List.nil_append, insert_of_lt p.above, hjoin]
    cases upper with
    | nil => exact ⟨size, [], rfl⟩
    | cons first rest =>
      simp only [join]
      split_ifs
      · exact ⟨_, _, rfl⟩
      · exact ⟨_, _, rfl⟩
  | cons first rest =>
    obtain ⟨hsentinel, hlower⟩ := List.cons.inj p.last
    have hlower : lower = rest ++ [before] := hlower
    have hbelow := p.below
    have hapart := h.apart
    have hpos : ∀ span ∈ lower, 0 < span.2 := fun span hm =>
      (h.inside span (by rw [p.split]; exact List.mem_append_left _ hm)).1
    rw [p.split] at hapart
    have hapart := (List.pairwise_append.mp hapart).1
    rw [hlower] at hbelow hapart hpos
    have hstart : ∀ span ∈ rest ++ [before], span.1 < block := by
      intro span hm
      have := hbelow span hm
      have := hpos span hm
      omega
    rw [← hsentinel, p.split, hlower, List.append_assoc, List.singleton_append,
      insert_append hapart (hstart before (by simp))
        (fun span hm => hstart span (List.mem_append_left _ hm)) p.above]
    rfl

end Place

/-- From everywhere on the ring the walk comes to the only header that has an answer. -/
theorem settles_of_unique (h : heap.FreeBlocks free) {block : Nat} {node : Span}
    {answer : Option Nat} (hm : node ∈ sentinelSpan :: free)
    (hanswer : heap.judge block node = some answer)
    (hother : ∀ other ∈ sentinelSpan :: free, other ≠ node → heap.judge block other = none) :
    heap.Settles free block answer := by
  intro start hstart steps hsteps
  obtain ⟨front, behind, -, hperm, hl⟩ := h.exists_lap hstart
  apply settleFrom_eq h (start :: (behind ++ front)) _ hl (fun other hm => hperm.mem_iff.mp hm)
  · have := hperm.length_eq
    have := h.length_le
    simp only [List.length_cons] at *
    omega
  · exact findSome?_eq_of_unique (hperm.mem_iff.mpr hm) hanswer
      fun other hm => hother other (hperm.mem_iff.mp hm)

/-- A block that is not free has a place, and the walk finds it from everywhere on the ring. -/
theorem exists_place (h : heap.FreeBlocks free) {block : Nat} (hblock : block < heap.arenaUnits)
    (hout : ∀ span ∈ free, covers block span = false) :
    ∃ front before lower upper, Place free block front before lower upper ∧
      heap.Settles free block (some before.1) := by
  have hsentinel := h.lt_sentinel_of_lt hblock
  obtain ⟨lower, upper, hfree, hlower, hupper⟩ := exists_lower_upper h.apart hout
  obtain ⟨front, before, hlast⟩ : ∃ front before, sentinelSpan :: lower = front ++ [before] :=
    ⟨_, _, (List.dropLast_concat_getLast (List.cons_ne_nil _ _)).symm⟩
  have place : Place free block front before lower upper := ⟨hfree, hlast, hlower, hupper⟩
  refine ⟨front, before, lower, upper, place, ?_⟩
  apply settles_of_unique h place.before_mem_ring (place.judge_before h hsentinel)
  exact fun node hm => place.judge_other h hsentinel hout hm

/-- From every cursor the walk finds the place of a block that is not free. -/
theorem insertionPoint_eq (h : heap.FreeBlocks free) {block : Nat}
    (hblock : block < heap.arenaUnits) (hout : ∀ span ∈ free, covers block span = false) :
    ∃ front before lower upper, Place free block front before lower upper ∧
      heap.insertionPoint block = .ok (some before.1) := by
  obtain ⟨front, before, lower, upper, place, s⟩ := exists_place h hblock hout
  exact ⟨front, before, lower, upper, place, s.insertionPoint_eq h⟩

/-! ## Blocks that are free already -/

/-- At a header other than that of the free block in which a unit lies, the walk goes on. -/
theorem judge_beside (h : heap.FreeBlocks free) {block : Nat} {span node : Span}
    (hspan : span ∈ free) (hcover : covers block span = true) (hm : node ∈ sentinelSpan :: free)
    (hne : node ≠ span) : heap.judge block node = none := by
  obtain ⟨lower, upper, hfree⟩ := List.append_of_mem hspan
  have hsentinel := h.lt_sentinel hspan
  have hinside := h.inside span hspan
  have hblock : block < sentinel := by
    apply h.lt_sentinel_of_lt
    rw [covers_iff] at hcover
    omega
  have hapart := h.apart
  rw [hfree] at hapart
  obtain ⟨-, hbehind, hcross⟩ := List.pairwise_append.mp hapart
  rw [covers_iff] at hcover
  have hring := hm
  rw [hfree, ← List.cons_append, List.mem_append, List.mem_cons (b := span)] at hring
  unfold judge
  rcases hring with hlower | hhere | hupper
  · -- A header below the block leads at most to it.
    obtain ⟨front, rest, hrest⟩ := List.append_of_mem hlower
    have hsplit : sentinelSpan :: free = front ++ node :: (rest ++ span :: upper) := by
      rw [hfree, ← List.cons_append, hrest, List.append_assoc]
      rfl
    have hlink := h.linkOf_le hsplit (List.mem_append_right rest List.mem_cons_self)
    rcases List.mem_cons.mp hlower with rfl | hlower
    · rw [if_neg (by rw [covers_iff]; simp only; omega), if_neg (by simp only at *; omega)]
    · have hgap := hcross node hlower span List.mem_cons_self
      have hnext := h.lt_linkOf (hfree ▸ List.mem_append_left _ hlower)
      unfold Apart at hgap
      rw [if_neg (by rw [covers_iff]; omega), if_neg (by omega)]
  · exact absurd hhere hne
  · have hgap := (List.pairwise_cons.mp hbehind).1 node hupper
    have hnext := h.lt_linkOf (hfree ▸ List.mem_append_right _ (List.mem_cons_of_mem _ hupper))
    unfold Apart at hgap
    rw [if_neg (by rw [covers_iff]; omega), if_neg (by omega)]

/-- From everywhere on the ring the walk finds out that a unit lies in a free block. -/
theorem settles_of_covers (h : heap.FreeBlocks free) {block : Nat} {span : Span}
    (hspan : span ∈ free) (hcover : covers block span = true) : heap.Settles free block none :=
  settles_of_unique h (List.mem_cons_of_mem _ hspan) (if_pos hcover)
    fun _ hm => judge_beside h hspan hcover hm

/-- From every cursor the walk finds out that a unit lies in a free block. -/
theorem insertionPoint_of_covers (h : heap.FreeBlocks free) {block : Nat} {span : Span}
    (hspan : span ∈ free) (hcover : covers block span = true) :
    heap.insertionPoint block = .ok none := (settles_of_covers h hspan hcover).insertionPoint_eq h

/-- Giving back a unit of a free block leaves a complaint and changes nothing. -/
theorem release_of_covers (h : heap.FreeBlocks free) {block : Nat} {span : Span}
    (hspan : span ∈ free) (hcover : covers block span = true) :
    release block heap = (do
      Traced.report .error fun _ => .ok s!"heap: double free of block {block} ignored"
      return heap) := by
  rw [release, insertionPoint_of_covers h hspan hcover]
  rfl

/-! ## Joining -/

/-- The header that a block gets is that of the block joined to the free block behind it, if
they touch. -/
theorem joinNext_eq (h : heap.FreeBlocks free) {block size : Nat} {upper : List Span}
    (hupper : ∀ span ∈ upper, span ∈ free ∧ block < span.1) {lower : List Span}
    (hfree : free = lower ++ upper) (hin : block + size ≤ heap.arenaUnits) :
    ∃ merged old above, upper = old ++ above ∧
      join (block, size) upper = (block, merged) :: above ∧
      heap.joinNext block size (entry upper sentinel) = .ok ⟨entry above sentinel, merged⟩ := by
  have hbounded := h.bounded
  cases upper with
  | nil =>
    refine ⟨size, [], [], rfl, rfl, ?_⟩
    simp [joinNext]
  | cons next rest =>
    obtain ⟨hnext, -⟩ := hupper next List.mem_cons_self
    have hinside := h.inside next hnext
    have hlink : heap.linkOf next.1 = entry rest sentinel :=
      h.linkOf_eq (sentinelSpan :: lower) next rest (by rw [hfree]; rfl)
    by_cases touch : block + size = next.1
    · refine ⟨size + next.2, [next], rest, rfl, by simp [join, touch], ?_⟩
      rw [entry_cons, joinNext, if_neg (h.ne_sentinel hnext), Word.add_eq_ok (by omega),
        Outcome.ok_bind, if_pos touch, h.node_eq (List.mem_cons_of_mem _ hnext), Outcome.ok_bind,
        Word.add_eq_ok (by simp only; omega), Outcome.ok_bind, hlink]
      rfl
    · refine ⟨size, [], next :: rest, rfl, by simp [join, touch], ?_⟩
      rw [entry_cons, joinNext, if_neg (h.ne_sentinel hnext), Word.add_eq_ok (by omega),
        Outcome.ok_bind, if_neg touch]
      rfl

/-- The block in front takes the new block in if they touch, and leads to it if they do not.
No link or size changes but theirs. -/
theorem joinBefore_eq {block merged : Nat} {before : Span} {above : List Span}
    (hb : block + merged ≤ 2 ^ 60) (hbefore : heap.Within before.1)
    (hsize : heap.sizeOf before.1 = before.2)
    (hbelow : before = sentinelSpan ∨ 0 < before.2 ∧ before.1 + before.2 ≤ block)
    (hlink : heap.linkOf block = entry above sentinel) (hmerged : heap.sizeOf block = merged) :
    ∃ other before' new, join before ((block, merged) :: above) = before' :: (new ++ above) ∧
      heap.joinBefore before.1 block ⟨entry above sentinel, merged⟩ = .ok other ∧
      before'.1 = before.1 ∧ other.Leads (entry above sentinel) (before' :: new) ∧
      (∀ span ∈ before' :: new, other.sizeOf span.1 = span.2) ∧
      ∃ unit, other = heap.put before.1 unit := by
  have hne : before.1 ≠ block := by
    rcases hbelow with rfl | hbelow
    · show sentinel ≠ block
      unfold sentinel
      omega
    · omega
  have hin : before.1 ≠ sentinel → before.1 + before.2 ≤ block := by
    intro hstart
    rcases hbelow with rfl | hbelow
    · exact absurd rfl hstart
    · exact hbelow.2
  rw [joinBefore, Heap.node_eq hbefore, Outcome.ok_bind]
  simp only [setLink_eq _ hbefore, setNode_eq _ hbefore, hsize]
  by_cases touch : before.1 + before.2 = block
  · have hstart : before.1 ≠ sentinel := by
      intro hs
      rw [hs] at touch
      unfold sentinel at touch
      omega
    let unit : HeapUnit := ⟨entry above sentinel, before.2 + merged⟩
    refine ⟨heap.put before.1 unit, (before.1, before.2 + merged), [], by simp [join, touch],
      ?_, rfl, ⟨?_, trivial⟩, ?_, unit, rfl⟩
    · have := hin hstart
      rw [if_neg hstart, Word.add_eq_ok (by omega), Outcome.ok_bind, if_pos touch,
        Word.add_eq_ok (by omega), Outcome.ok_bind]
    · rw [linkOf_put, if_pos rfl]
      rfl
    · intro span hm
      rw [List.mem_singleton] at hm
      subst hm
      exact sizeOf_put_self heap before.1 unit hstart
  · let unit : HeapUnit := ⟨block, before.2⟩
    refine ⟨heap.put before.1 unit, before, [(block, merged)], by simp [join, touch],
      ?_, rfl, ⟨?_, ?_, trivial⟩, ?_, unit, rfl⟩
    · split_ifs with hstart
      · rfl
      · have := hin hstart
        rw [Word.add_eq_ok (by omega), Outcome.ok_bind, if_neg touch]
    · rw [linkOf_put, if_pos rfl]
      rfl
    · rw [linkOf_put, if_neg (Ne.symm hne)]
      exact hlink
    · intro span hm
      rcases List.mem_cons.mp hm with rfl | hm
      · have := sizeOf_put_link heap span.1 block span.1
        rw [hsize] at this
        exact this
      · rw [List.mem_singleton] at hm
        subst hm
        rw [sizeOf_put_of_ne heap before.1 unit (Ne.symm hne)]
        exact hmerged

/-! ## Releasing -/

/-- What it means that the block of `size` units at `block` is free now. -/
structure Released (heap : Heap γ) (free : List Span) (block size : Nat) (other : Heap γ) :
    Prop where
  /-- The block is among the free blocks, as one with those that it touches. -/
  freeBlocks : other.FreeBlocks (Span.insert (block, size) free)
  /-- Units that are not free now are as they were. -/
  agree : AgreeOutside ((block, size) :: free) heap other
  arenaUnits_eq : other.arenaUnits = heap.arenaUnits
  growth_eq : other.growth = heap.growth

/-- What is written when a block is put behind `before`, in front of the free blocks `upper`: the
headers `old` of the ring give way to `new`, `before` becomes `before'`, and those of `above`
stay. -/
structure Linked (heap : Heap γ) (block size : Nat) (before : Span) (upper : List Span)
    (other : Heap γ) (before' : Span) (old new above : List Span) : Prop where
  upper_eq : upper = old ++ above
  join_eq : join before (join (block, size) upper) = before' :: (new ++ above)
  start_eq : before'.1 = before.1
  leads : other.Leads (entry above sentinel) (before' :: new)
  sizes : ∀ span ∈ before' :: new, other.sizeOf span.1 = span.2
  /-- Only the headers of the block and of `before` are written. -/
  writes : ∃ header unit, other = { (heap.put block header).put before.1 unit with
    cursor := before.1, freeUnits := heap.freeUnits + size }

section Link

variable {block size : Nat} {front : List Span} {before : Span} {lower upper : List Span}

/-- Putting a block at its place goes through. -/
theorem link_eq (h : heap.FreeBlocks free) (p : Place free block front before lower upper)
    (hb : block < sentinel) (hin : block + size ≤ heap.arenaUnits)
    (hwithin : heap.Within block) (hheader : heap.sizeOf block = size) :
    ∃ other before' old new above, heap.link before.1 block = .ok other ∧
      Linked heap block size before upper other before' old new above := by
  have hbounded := h.bounded
  have hring := p.before_mem_ring
  have hupperfree : ∀ span ∈ upper, span ∈ free := by
    rw [p.split]
    exact fun span => List.mem_append_right _
  obtain ⟨merged, old, above, hupper, hjoin, hnext⟩ :=
    joinNext_eq h (fun span hm => ⟨hupperfree span hm, p.above span hm⟩) p.split hin
  have hmerged : block + merged ≤ heap.arenaUnits := by
    refine forall_join (P := fun span => span.1 + span.2 ≤ heap.arenaUnits)
      (fun a m n _ hn => by simp only at hn ⊢; omega)
      (show (block, size).1 + (block, size).2 ≤ heap.arenaUnits from hin)
      (fun span hm => (h.inside span (hupperfree span hm)).2) (block, merged) ?_
    rw [hjoin]
    exact List.mem_cons_self
  have hbelow : before = sentinelSpan ∨ 0 < before.2 ∧ before.1 + before.2 ≤ block := by
    rcases List.mem_cons.mp p.mem_before with hs | hm
    · exact .inl hs
    · refine .inr ⟨(h.inside before ?_).1, p.below before hm⟩
      rw [p.split]
      exact List.mem_append_left _ hm
  -- First the header of the block is written, then the one in front of it.
  let header : HeapUnit := ⟨entry above sentinel, merged⟩
  have hset : heap.setNode block ⟨entry above sentinel, merged⟩ = .ok (heap.put block header) :=
    setNode_eq header hwithin
  have hsize : (heap.put block header).sizeOf before.1 = before.2 := by
    rw [sizeOf_put_of_ne heap block header (p.ne_block h hb hring), h.sizeOf_eq hring]
  have hheaderlink : (heap.put block header).linkOf block = entry above sentinel := by
    rw [linkOf_put, if_pos rfl]
  obtain ⟨joined, before', new, hjoin', hjoined, hstart, hnew, hnewsizes, unit, rfl⟩ :=
    joinBefore_eq (Nat.le_trans hmerged hbounded)
      ((within_put heap block header _).mpr (h.within hring)) hsize hbelow hheaderlink
      (sizeOf_put_self heap block header (Nat.ne_of_lt hb))
  let other : Heap γ := { (heap.put block header).put before.1 unit with
    cursor := before.1, freeUnits := heap.freeUnits + size }
  have hlinked : heap.link before.1 block = .ok other := by
    have hcount := h.counted
    have hsum := h.sum_le
    simp only [link, Heap.node_eq hwithin, h.node_eq hring, hheader, p.linkOf_before h, hnext,
      hset, hjoined, freeUnits_put, Outcome.ok_bind]
    rw [Word.add_eq_ok (by omega), Outcome.ok_bind]
    rfl
  refine ⟨other, before', old, new, above, hlinked, hupper, ?_, hstart,
    hnew.congr fun _ _ => rfl, hnewsizes, header, unit, rfl⟩
  rw [hjoin, hjoin']

variable {other : Heap γ} {before' : Span} {old new above : List Span}

/-- A header of the ring that stays is read as before. -/
theorem Linked.same (l : Linked heap block size before upper other before' old new above)
    {index : Nat} (hblock : index ≠ block) (hbefore : index ≠ before.1) :
    other.linkOf index = heap.linkOf index ∧ other.sizeOf index = heap.sizeOf index := by
  obtain ⟨header, unit, rfl⟩ := l.writes
  constructor
  · show ((heap.put block header).put before.1 unit).linkOf index = _
    rw [linkOf_put, if_neg hbefore, linkOf_put, if_neg hblock]
  · show ((heap.put block header).put before.1 unit).sizeOf index = _
    rw [sizeOf_put_of_ne _ _ _ hbefore, sizeOf_put_of_ne _ _ _ hblock]

/-- A block that was put at its place is free. -/
theorem Linked.released (l : Linked heap block size before upper other before' old new above)
    (h : heap.FreeBlocks free) (p : Place free block front before lower upper) (hpos : 0 < size)
    (hb : block < sentinel) (hin : block + size ≤ heap.arenaUnits)
    (hdis : ∀ span ∈ upper, block + size ≤ span.1) : Released heap free block size other := by
  have hring := p.ring_eq
  rw [l.upper_eq] at hring
  have hring' : sentinelSpan :: Span.insert (block, size) free =
      front ++ before' :: (new ++ above) := by
    rw [p.ring_insert h hb, l.join_eq]
  have hsame : ∀ span ∈ front ++ above, other.linkOf span.1 = heap.linkOf span.1 ∧
      other.sizeOf span.1 = heap.sizeOf span.1 := by
    intro span hm
    have hothers : span ∈ front ++ (old ++ above) := by
      rw [List.mem_append] at hm ⊢
      apply hm.imp_right
      exact List.mem_append_right _
    obtain ⟨hmem, hne⟩ := h.mem_others hring hothers
    exact l.same (p.ne_block h hb hmem) hne
  obtain ⟨hleads, hsizes⟩ := h.spliced hring hring' l.start_eq l.leads l.sizes hsame
  obtain ⟨header, unit, hother⟩ := l.writes
  have hunits : other.arenaUnits = heap.arenaUnits := by
    rw [hother]
    show ((heap.put block header).put before.1 unit).arenaUnits = _
    rw [arenaUnits_put, arenaUnits_put]
  refine ⟨⟨hleads, hsizes, ?_, ?_, ?_, ?_, ?_⟩, ?_, hunits, ?_⟩
  · apply pairwise_insert h.apart hpos (fun span hm => (h.inside span hm).1)
    intro span hm
    rw [p.split, List.mem_append] at hm
    exact hm.imp (p.below span) (hdis span)
  · rw [hunits]
    refine forall_insert (P := fun span => 0 < span.2 ∧ span.1 + span.2 ≤ heap.arenaUnits)
      ?_ ⟨hpos, hin⟩ h.inside
    intro a m n hm hn
    simp only at hm hn ⊢
    omega
  · rw [hring', show other.cursor = before'.1 by rw [hother, l.start_eq]]
    apply List.mem_map_of_mem
    simp
  · rw [hother, sum_insert, ← h.counted]
    exact Nat.add_comm _ _
  · rw [hunits]
    exact h.bounded
  · intro index hout
    obtain ⟨hblockout, hfreeout⟩ := List.forall_mem_cons.mp hout
    have hindex : index ≠ block := by
      rintro rfl
      rw [← Bool.not_eq_true, covers_iff] at hblockout
      simp only at hblockout
      omega
    rw [hother]
    show ((heap.put block header).put before.1 unit).arena.get index = _
    rw [h.agreeOutside_put _ p.before_mem_ring unit index hfreeout, get_put_of_ne _ _ _ hindex]
  · rw [hother]
    show ((heap.put block header).put before.1 unit).growth = _
    rw [growth_put, growth_put]

end Link

/-- Giving back a block that shares no unit with the free blocks makes it free, without a
complaint. -/
theorem release_eq (h : heap.FreeBlocks free) {block size : Nat} (hpos : 0 < size)
    (hin : block + size ≤ heap.arenaUnits) (hheader : (heap.arena.get block).size = size)
    (hdis : ∀ span ∈ free, span.1 + span.2 ≤ block ∨ block + size ≤ span.1) :
    ∃ other, release block heap = pure other ∧ Released heap free block size other := by
  have hbounded := h.bounded
  have hout : ∀ span ∈ free, covers block span = false := by
    intro span hm
    have := hdis span hm
    rw [← Bool.not_eq_true, covers_iff]
    omega
  have hsize : heap.sizeOf block = size := by
    unfold sizeOf sentinel
    rwa [if_neg (by omega)]
  obtain ⟨front, before, lower, upper, p, hpoint⟩ := insertionPoint_eq h (by omega) hout
  have hupper : ∀ span ∈ upper, block + size ≤ span.1 := by
    intro span hm
    have := p.above span hm
    have := hdis span (by rw [p.split]; exact List.mem_append_right _ hm)
    omega
  have hsentinel := h.lt_sentinel_of_lt (show block < heap.arenaUnits by omega)
  obtain ⟨other, before', old, new, above, hlink, linked⟩ :=
    link_eq h p hsentinel hin (.inr (by omega)) hsize
  refine ⟨other, ?_, linked.released h p hpos hsentinel hin hupper⟩
  rw [release, hpoint]
  show liftM (heap.link before.1 block) = _
  rw [hlink]
  rfl

end BootMemory.Heap
